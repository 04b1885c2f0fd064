import MsgCourier.BufferRoom
import MsgCourier.Markup

/-! `cParseMarkup::Parse` on its buffers. A region that is handed to `Remove` or `ReplaceWith` is
checked against the content. -/
namespace MsgCourier
open ListSearch CText

/-! ### The calls of the buffers -/

namespace RegionCheck

/-- A call of a buffer; its exception leaves `Parse`. -/
def raise {α : Type} (x : Cxx α) : Markup α := x.mapError .raised

def checkRegion (b : Buffer) (iIndex iLength : ℤ) : Markup Unit :=
  if 0 ≤ iIndex ∧ 0 ≤ iLength ∧ iIndex+iLength ≤ b.tail then pure ()
  else .error (.region iIndex iLength)

def remove (b : Buffer) (iIndex iLength : ℤ) : Markup Buffer := do
  checkRegion b iIndex iLength
  let (_, b) ← raise (b.remove iIndex iLength)
  pure b

def replace [Malloc] (b : Buffer) (pPattern pWith : Bytes) : Markup Buffer := do
  let (iStart, b) ← raise (b.find pPattern 0)
  if iStart = -1 then pure b
  else do
    let b ← remove b iStart (int32 pPattern.length)
    raise (b.insert iStart pWith (int32 pWith.length))

/-- The condition of the loop of `ReplaceAll`: the place that `Find` gives, with the buffer. -/
def search (b : Buffer) (pPattern : Bytes) (idx : ℤ) : Markup (ℤ × Buffer) :=
  raise (b.find pPattern idx)

def replaceRound [Malloc] (pPattern pWith : Bytes) (x : ℤ × Buffer) :
    Markup (Option (ℤ × Buffer)) :=
  if x.1 = -1 then pure none
  else do
    let b ← remove x.2 x.1 (int32 pPattern.length)
    let b ← raise (b.insert x.1 pWith (int32 pWith.length))
    let x ← search b pPattern (int32 (x.1+int32 pWith.length))
    pure (some x)

/-- No text takes more rounds than it has characters, except for the empty pattern, which is found
for ever. -/
def replaceAll [Malloc] (b : Buffer) (pPattern pWith : Bytes) : Markup Buffer := do
  let x ← search b pPattern 0
  let (_, b) ← Markup.rounds (replaceRound pPattern pWith) (b.tail.toNat+1) x
  pure b

def replaceEach [Malloc] (pairs : List (Bytes × Bytes)) (b : Buffer) : Markup Buffer :=
  pairs.foldlM (fun b pair => replaceAll b pair.1 pair.2) b

/-- `trimBlanks` is the rest of `Cleanup`, with the one call of `Remove`. -/
def cleanup [Malloc] (b : Buffer) : Markup Buffer := do
  let b ← replaceAll b (bytes "\t") []
  let b ← replaceAll b (bytes "\r") []
  let b ← replaceAll b (bytes "\n") []
  match b.pBuffer with
  | none => pure b
  | some mem => do
    let j ← raise (Buffer.leadingBlanks mem)
    checkRegion b 0 j
    raise b.trimBlanks

/-- `into.ReplaceWith(b.cstr()+iIndex, iLength)`. -/
def copyRegion [Malloc] (b into : Buffer) (iIndex iLength : ℤ) : Markup (Buffer × Buffer) := do
  let (mem, b) ← raise b.getBuffer
  checkRegion b iIndex iLength
  let (_, into) ← raise (into.replaceWith (mem.map (·.drop iIndex.toNat)) iLength)
  pure (b, into)

/-- `c_str()` as a text, which a null pointer is not. -/
def cText (b : Buffer) : Markup (Bytes × Buffer) := do
  let (mem, b) ← raise b.getBuffer
  match mem with
  | none => .error (.raised .undefined)
  | some mem => pure (cstr mem, b)

/-- `ReplaceWith` of a whole text, whose `strlen` becomes an `int`. -/
def replaceWithText [Malloc] (b : Buffer) (s : Bytes) : Markup Buffer := do
  let iSize := int32 s.length
  if iSize < 0 then .error (.region 0 iSize)
  else do
    let (_, b) ← raise (b.replaceWith (some (s ++ [0])) iSize)
    pure b

/-- `Append` of a `string` with its length as an `int`; a negative one is a `size_t` beyond every
block. -/
def appendText [Malloc] (b : Buffer) (s : Bytes) : Markup Buffer := do
  let iLen := int32 s.length
  if iLen < 0 then .error (.raised .undefined)
  else do
    let (_, b) ← raise (b.append (some (s ++ [0])) iLen)
    pure b

/-- `Append` without a length. -/
def appendString [Malloc] (b : Buffer) (s : Bytes) : Markup Buffer := do
  let (_, b) ← raise (b.append (some (s ++ [0])) (-1))
  pure b

def toLower (b : Buffer) : Buffer :=
  { b with pBuffer := b.pBuffer.map fun mem =>
      Markup.toLower (mem.take b.tail.toNat) ++ mem.drop b.tail.toNat }

end RegionCheck

/-! ### The members -/

/-- The members of `cParseMarkup`. -/
structure ParseMarkup where
  baseURL : Bytes := []
  uriMap : List Bytes := []
  metaContentKeywords : Bytes := []
  text : Bytes := []
  title : Bytes := []
  buffer : Buffer := {}
  wordCount : ℕ := 0

namespace ParseMarkup
open RegionCheck
open Markup (rounds findChar startsWith isKept keywordsOf brackets commons otherCharacters
  separators)

/-- The two loops: the members and the local variables that they change. -/
structure Pass where
  buffer : Buffer
  token : Buffer := {}
  temp : Buffer := {}
  mark : ℕ := 0
  title : Bytes
  metaContentKeywords : Bytes
  uriMap : List Bytes

/-- The token from one bracket to the next, as a text. -/
def takeToken [Malloc] (x : Pass) (loc1 loc2 : ℕ) : Markup (Bytes × Pass) := do
  let (buffer, token) ← copyRegion x.buffer x.token loc1 ((loc2 : ℤ)-loc1+1)
  let (text, token) ← cText token
  pure (text, { x with buffer, token })

/-! ### The first loop -/

/-- The title behind a `<title>` up to the next tag; `none` for an empty one. -/
def takeTitle [Malloc] (x : Pass) (token : Bytes) (loc1 : ℕ) : Markup (Option Bytes × Pass) :=
  if token = bytes "<title>" then do
    let iStart := loc1+token.length
    -- `FindChar` gives -1 when no tag follows, and the length is negative
    let iEnd : ℤ := (findChar x.buffer.content 60 iStart).elim (-1) fun i => (i : ℤ)
    let (buffer, temp) ← copyRegion x.buffer x.temp iStart (iEnd-iStart)
    -- an empty title stays in the text, and the search goes on at its own bracket
    if temp.tail < 1 then pure (none, { x with buffer, temp })
    else do
      let (title, temp) ← cText temp
      pure (some title, { x with buffer, temp })
  else pure (some x.title, x)

/-- What is done with a token that is taken out of the text. -/
def takeTag [Malloc] (x : Pass) (token : Bytes) (loc1 : ℕ) : Markup (Option Pass) := do
  let (title, x) ← takeTitle x token loc1
  match title with
  | none => pure (some { x with mark := loc1 })
  | some title => do
    let keywords ← keywordsOf token
    let buffer ← replaceAll x.buffer token []
    pure (some { x with
      buffer
      mark := 0
      title
      metaContentKeywords := x.metaContentKeywords ++ keywords })

/-- One round; `none` when the loop is left. -/
def titleRound [Malloc] (x : Pass) : Markup (Option Pass) :=
  match findChar x.buffer.content 60 x.mark with
  | none => pure none
  | some loc1 =>
    match findChar x.buffer.content 62 loc1 with
    | none => pure none
    | some loc2 => do
      let (token, x) ← takeToken x loc1 loc2
      if isKept token then pure (some { x with mark := loc1+1 }) else takeTag x token loc1

/-! ### The second loop -/

/-- A `<style` or `<script` up to its end tag, or up to the end of its own tag; eight characters
more in both cases. -/
def removeElement (b : Buffer) (loc1 loc2 iOffset : ℕ) (endTag : Bytes) : Markup Buffer := do
  let (endtag, b) ← raise (b.find endTag iOffset)
  -- without an end tag the region goes eight characters beyond the tag's own end
  let endtag := if endtag = -1 then (loc2 : ℤ) else endtag
  remove b loc1 (int32 (endtag-loc1+8))

def truncateAtQuote (temp : Buffer) : Buffer :=
  match findChar temp.content 34 0 with
  -- the quote at the front is not cut off
  | some i => if 0 < i then temp.truncate (int32 (temp.tail-i)) else temp
  | none => temp

/-- The address of a link up to its quote. -/
def fillLink [Malloc] (baseURL : Bytes) (temp : Buffer) (value : Bytes) : Markup Buffer := do
  let temp ←
    if startsWith (bytes "http://") value then replaceWithText temp value
    else do
      let temp ← replaceWithText temp baseURL
      appendString temp value
  replaceAll (truncateAtQuote temp) (bytes "//") (bytes "/")

def linkText [Malloc] (baseURL : Bytes) (temp : Buffer) (value : Bytes) : Markup Buffer := do
  let temp ← fillLink baseURL temp value
  let temp ← replace temp (bytes "http:/") (bytes "http://")
  let temp ← replace temp (bytes "http:") (bytes " ")
  let temp ← replace temp (bytes "www.www.") (bytes "www.")
  cleanup temp

/-- The branches of a round, which has found a token. -/
def removeToken [Malloc] (baseURL : Bytes) (x : Pass) (loc1 loc2 : ℕ) (token : Bytes) :
    Markup Pass :=
  if startsWith (bytes "<style") token then do
    let buffer ← removeElement x.buffer loc1 loc2 loc1 (bytes "</style>")
    pure { x with buffer }
  else if startsWith (bytes "<script") token then do
    let buffer ← removeElement x.buffer loc1 loc2 loc2 (bytes "</script>")
    pure { x with buffer }
  else if startsWith (bytes "<a ") token then
    match strstr token (bytes "href=\"") with
    | none => do
      let buffer ← replaceAll x.buffer token []
      pure { x with buffer }
    | some p => do
      let temp ← linkText baseURL x.temp (token.drop (p+6))
      let (uri, temp) ← cText temp
      let buffer ← replaceAll x.buffer token []
      pure { x with buffer, temp, uriMap := x.uriMap.insert uri }
  else do
    let buffer ← replaceAll x.buffer token []
    pure { x with buffer }

/-- One round; `none` when the loop is left. -/
def removalRound [Malloc] (baseURL : Bytes) (x : Pass) : Markup (Option Pass) :=
  match findChar x.buffer.content 60 x.mark with
  | none => pure none
  | some loc1 =>
    match findChar x.buffer.content 62 loc1 with
    | none => pure none
    | some loc2 => do
      let (token, x) ← takeToken x loc1 loc2
      let x ← removeToken baseURL x loc1 loc2 token
      pure (some { x with mark := loc1 })

/-! ### The whole call -/

/-- The page with its brackets decoded. -/
def decodeText [Malloc] (p : ParseMarkup) (pData : Bytes) (bLightParse : Bool) : Markup Buffer := do
  let buffer ← replaceWithText p.buffer pData
  replaceEach brackets (if bLightParse then buffer else RegionCheck.toLower buffer)

/-- The text in front of the first loop, with a blank behind each closing bracket. -/
def fillText [Malloc] (p : ParseMarkup) (pData : Bytes) (bLightParse : Bool) : Markup Buffer := do
  let buffer ← p.decodeText pData bLightParse
  replaceAll buffer (bytes ">") (bytes "> ")

def titleStart (p : ParseMarkup) (buffer : Buffer) : Pass :=
  { buffer, title := p.title, metaContentKeywords := p.metaContentKeywords, uriMap := p.uriMap }

def appendKeywords [Malloc] (bLightParse : Bool) (x : Pass) : Markup Pass :=
  if !bLightParse ∧ x.metaContentKeywords.length > 0 then do
    let buffer ← [bytes " ", x.metaContentKeywords].foldlM appendText x.buffer
    pure { x with buffer, mark := 0 }
  else pure { x with mark := 0 }

/-- The title and the website's address behind the text. -/
def appendNames [Malloc] (p : ParseMarkup) (bLightParse : Bool) (x : Pass) : Markup Buffer :=
  if bLightParse then pure x.buffer
  else [bytes " ", x.title, bytes " ", p.baseURL].foldlM appendText x.buffer

/-- The text whose words are taken. -/
def cleanText [Malloc] (p : ParseMarkup) (bLightParse : Bool) (x : Pass) : Markup Buffer := do
  let buffer ← p.appendNames bLightParse x
  let buffer ← replaceEach (if bLightParse then [] else commons) buffer
  replaceEach otherCharacters buffer

def wordsOf (bLightParse : Bool) (s : Bytes) : List Bytes :=
  tokenizer (fun c => c ∈ separators bLightParse) s

/-- What is appended for the words: a blank behind each one. -/
def spaced (words : List Bytes) : List Bytes := words.flatMap fun word => [word, bytes " "]

/-- The words of the text, which become its content. -/
def finish [Malloc] (p : ParseMarkup) (bLightParse : Bool) (x : Pass) : Markup ParseMarkup := do
  let buffer ← p.cleanText bLightParse x
  let (s, buffer) ← cText buffer
  let words := wordsOf bLightParse s
  let buffer ← (spaced words).foldlM appendString buffer.reset
  let (text, buffer) ← cText buffer
  pure { p with
    uriMap := x.uriMap
    metaContentKeywords := x.metaContentKeywords
    text
    title := x.title
    buffer
    wordCount := words.length }

/-- `Parse`, with a bound on the rounds of its two loops. -/
def parse [Malloc] (p : ParseMarkup) (n : ℕ) (pData : Bytes) (bLightParse : Bool) :
    Markup ParseMarkup := do
  let buffer ← p.fillText pData bLightParse
  let x ← rounds titleRound n (p.titleStart buffer)
  let x ← appendKeywords bLightParse x
  let x ← rounds (removalRound p.baseURL) n x
  p.finish bLightParse x

end ParseMarkup
end MsgCourier
