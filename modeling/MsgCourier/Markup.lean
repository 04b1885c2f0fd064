import MsgCourier.BufferCleanup
import MsgCourier.Url

/-! What the loops of `cParseMarkup::Parse` do to the text of a page: it loses its tags. A text has
no bound here, and a region is checked against it. -/
namespace MsgCourier
open ListSearch CText

/-- How a call does not return: a loop that goes on, a region outside the content, or what a buffer
throws. -/
inductive MarkupFault
  | rounds
  | region (iIndex iLength : ℤ)
  | raised (e : Exn)
  deriving DecidableEq, Repr

abbrev Markup := Except MarkupFault

namespace Markup

/-! ### Texts -/

def InContent (s : Bytes) (iIndex iLength : ℤ) : Prop :=
  0 ≤ iIndex ∧ 0 ≤ iLength ∧ iIndex+iLength ≤ s.length

instance (s : Bytes) (iIndex iLength : ℤ) : Decidable (InContent s iIndex iLength) :=
  inferInstanceAs (Decidable (_ ∧ _))

/-- The bytes that `ReplaceWith` copies from another buffer's content. -/
def region (s : Bytes) (iIndex iLength : ℤ) : Markup Bytes :=
  if InContent s iIndex iLength then .ok ((s.drop iIndex.toNat).take iLength.toNat)
  else .error (.region iIndex iLength)

def remove (s : Bytes) (iIndex iLength : ℤ) : Markup Bytes :=
  if InContent s iIndex iLength then
    .ok (s.take iIndex.toNat ++ s.drop (iIndex.toNat+iLength.toNat))
  else .error (.region iIndex iLength)

/-- `FindChar`, with `none` for -1. -/
def findChar (s : Bytes) (ch : Byte) (iStart : ℕ) : Option ℕ :=
  (firstOcc [ch] (s.drop iStart)).map (iStart + ·)

/-- `Find`, with `none` for -1. -/
def find (s pszText : Bytes) (iOffset : ℕ) : Option ℕ :=
  (strstr (s.drop iOffset) pszText).map (iOffset + ·)

def insert (s : Bytes) (iIndex : ℕ) (pData : Bytes) : Bytes :=
  s.take iIndex ++ pData ++ s.drop iIndex

def replace (pPattern pWith s : Bytes) : Markup Bytes :=
  match find s pPattern 0 with
  | none => .ok s
  | some iStart => do
    let s ← remove s iStart pPattern.length
    pure (insert s iStart pWith)

/-- The loop of `ReplaceAll`. -/
def replaceAllRounds (pPattern pWith : Bytes) : ℕ → ℕ → Bytes → Markup Bytes
  | 0, _, _ => .error .rounds
  | n+1, idx, s =>
    match find s pPattern idx with
    | none => .ok s
    | some idx => do
      let s ← remove s idx pPattern.length
      replaceAllRounds pPattern pWith n (idx+pWith.length) (insert s idx pWith)

/-- More rounds than the text has characters are never needed, except for the empty pattern, which
is found for ever. -/
def replaceAll (pPattern pWith s : Bytes) : Markup Bytes :=
  replaceAllRounds pPattern pWith (s.length+1) 0 s

/-- `Cleanup`. `Remove` moves the text over its beginning and leaves the old end behind it, which
the second count takes along. -/
def cleanup (s : Bytes) : Markup Bytes := do
  let s ← replaceAll (bytes "\t") [] s
  let s ← replaceAll (bytes "\r") [] s
  let s ← replaceAll (bytes "\n") [] s
  let j := (s.takeWhile Buffer.isBlank).length
  let rest ← remove s 0 j
  let pBuffer := rest ++ s.drop (s.length-j)
  let iTail : ℤ := rest.length-(pBuffer.rtakeWhile Buffer.isBlank).length
  if iTail < 0 then .error (.raised .undefined) else pure (rest.take iTail.toNat)

/-- `toLower` of a text. -/
def toLower (s : Bytes) : Bytes := s.map fun c => if 64 < c ∧ c < 91 then c+32 else c

/-- `strnicmp(s, pat, strlen(pat)) == 0` for a pattern in lower case. -/
def startsWith (pat s : Bytes) : Bool := toLower (s.take pat.length) = pat

/-- A `while` loop, with a bound on its rounds; a round gives `none` when the loop is left. -/
def rounds {α : Type} (round : α → Markup (Option α)) : ℕ → α → Markup α
  | 0, _ => .error .rounds
  | n+1, x => do
    match ← round x with
    | none => pure x
    | some x => rounds round n x

/-! ### The tokens -/

/-- The tokens that the first loop leaves in the text. -/
def isKept (token : Bytes) : Bool :=
  startsWith (bytes "<style") token || startsWith (bytes "</style") token ||
    startsWith (bytes "<script") token || startsWith (bytes "</script") token ||
    startsWith (bytes "<a ") token

/-- The keywords of a `<meta` token. The difference from a null pointer is undefined. -/
def keywordsOf (token : Bytes) : Markup Bytes :=
  if startsWith (bytes "<meta") token ∧ strstr token (bytes "\"keywords\"") ≠ none then
    match strstr token (bytes "content=\"") with
    | none => pure []
    | some pContent =>
      match strstr (token.drop (pContent+9)) (bytes "\"") with
      | none => .error (.raised .undefined)
      | some len => pure ((token.drop (pContent+9)).take len)
  else pure []

/-- The text up to a quote that is not its first character: the rest is truncated. -/
def truncated (temp : Bytes) : Bytes :=
  match findChar temp 34 0 with
  | some i => if 0 < i then temp.take i else temp
  | none => temp

/-- The address of a link up to its quote. -/
def fillLink (sBaseURL value : Bytes) : Markup Bytes :=
  let temp := if startsWith (bytes "http://") value then value else sBaseURL ++ value
  replaceAll (bytes "//") (bytes "/") (truncated temp)

/-- The address as it is before `Cleanup`. -/
def linkOf (sBaseURL value : Bytes) : Markup Bytes := do
  let temp ← fillLink sBaseURL value
  let temp ← replace (bytes "http:/") (bytes "http://") temp
  let temp ← replace (bytes "http:") (bytes " ") temp
  replace (bytes "www.www.") (bytes "www.") temp

def linkText (sBaseURL token : Bytes) : Markup (Option Bytes) :=
  match strstr token (bytes "href=\"") with
  | none => pure none
  | some p => do
    let temp ← linkOf sBaseURL (token.drop (p+6))
    pure (some temp)

/-! ### The first loop -/

structure TitlePass where
  text : Bytes
  mark : ℕ
  title : Bytes
  metaContentKeywords : Bytes

/-- The title behind a `<title>` up to the next tag; `none` for an empty one, where the loop goes on
at the same place. -/
def titleOf (x : TitlePass) (token : Bytes) (loc1 : ℕ) : Markup (Option Bytes) :=
  if token = bytes "<title>" then do
    let iStart := loc1+token.length
    let iEnd : ℤ := (findChar x.text 60 iStart).elim (-1) fun i => (i : ℤ)
    let temp ← region x.text iStart (iEnd-iStart)
    pure (if temp.length < 1 then none else some temp)
  else pure (some x.title)

/-- A token is taken out of the text, wherever it stands. -/
def takeTag (x : TitlePass) (token : Bytes) (loc1 : ℕ) : Markup (Option TitlePass) := do
  match ← titleOf x token loc1 with
  | none => pure (some { x with mark := loc1 })
  | some title => do
    let keywords ← keywordsOf token
    let text ← replaceAll token [] x.text
    pure (some ⟨text, 0, title, x.metaContentKeywords ++ keywords⟩)

/-- One round; `none` when the loop is left. -/
def titleRound (x : TitlePass) : Markup (Option TitlePass) :=
  match findChar x.text 60 x.mark with
  | none => pure none
  | some loc1 =>
    match findChar x.text 62 loc1 with
    | none => pure none
    | some loc2 => do
      let token ← region x.text loc1 ((loc2 : ℤ)-loc1+1)
      if isKept token then pure (some { x with mark := loc1+1 }) else takeTag x token loc1

/-! ### The second loop -/

structure RemovalPass where
  text : Bytes
  mark : ℕ
  uriMap : List Bytes

/-- A `<style` or `<script` up to its end tag, or up to the end of its own tag; eight characters
more in both cases. -/
def removeElement (text : Bytes) (loc1 loc2 : ℕ) (iOffset : ℕ) (endTag : Bytes) : Markup Bytes :=
  let endtag := (find text endTag iOffset).getD loc2
  remove text loc1 ((endtag : ℤ)-loc1+8)

/-- The branches of a round, which has found a token. -/
def removeToken (sBaseURL : Bytes) (y : RemovalPass) (loc1 loc2 : ℕ) (token : Bytes) :
    Markup (Option RemovalPass) :=
  if startsWith (bytes "<style") token then do
    let text ← removeElement y.text loc1 loc2 loc1 (bytes "</style>")
    pure (some ⟨text, loc1, y.uriMap⟩)
  else if startsWith (bytes "<script") token then do
    let text ← removeElement y.text loc1 loc2 loc2 (bytes "</script>")
    pure (some ⟨text, loc1, y.uriMap⟩)
  else if startsWith (bytes "<a ") token then do
    match ← linkText sBaseURL token with
    | none => do
      let text ← replaceAll token [] y.text
      pure (some ⟨text, loc1, y.uriMap⟩)
    | some temp => do
      let temp ← cleanup temp
      let text ← replaceAll token [] y.text
      pure (some ⟨text, loc1, y.uriMap.insert temp⟩)
  else do
    let text ← replaceAll token [] y.text
    pure (some ⟨text, loc1, y.uriMap⟩)

/-- One round; `none` when the loop is left. -/
def removalRound (sBaseURL : Bytes) (y : RemovalPass) : Markup (Option RemovalPass) :=
  match findChar y.text 60 y.mark with
  | none => pure none
  | some loc1 =>
    match findChar y.text 62 loc1 with
    | none => pure none
    | some loc2 => do
      let token ← region y.text loc1 ((loc2 : ℤ)-loc1+1)
      removeToken sBaseURL y loc1 loc2 token

/-! ### The whole call -/

def replaceEach (pairs : List (Bytes × Bytes)) (s : Bytes) : Markup Bytes :=
  pairs.foldlM (fun s pair => replaceAll pair.1 pair.2 s) s

def brackets : List (Bytes × Bytes) :=
  [(bytes "&lt;", bytes "<"), (bytes "&gt;", bytes ">")]

def commons : List (Bytes × Bytes) :=
  [(bytes "http", []), (bytes "www", []), (bytes ".com", []), (bytes ".net", []),
    (bytes ".org", []), (bytes ".", bytes " ")]

def otherCharacters : List (Bytes × Bytes) :=
  [(bytes "\t", bytes " "), (bytes "\r\n", bytes " "), (bytes "\n", bytes " "),
    (bytes "&apos;", bytes "'"), (bytes "&nbsp;", bytes " "), (bytes "&amp;", bytes "&"),
    (bytes "&raquo;", bytes " "), (bytes "&quot;", bytes "\"")]

def separators (bLightParse : Bool) : Bytes :=
  if bLightParse then bytes " |<>[]\x7b\x7d$()^"
  else bytes " |<>[]\x7b\x7d?:&+-#$`~()@%^=;,!\\/'\""

end Markup
end MsgCourier
