import MsgCourier.CText

/-! The stemmer of `cPorterStemming`. It works inside the bytes of one word, from `b[0]` to `b[k]`;
`j` is the offset in front of the suffix that was found last. -/
namespace MsgCourier
open CText

namespace PorterStemmer

/-- `k0` is 0 in the only call of `stem`. -/
structure Stemmer where
  b : Bytes
  k : ℤ
  j : ℤ
  deriving DecidableEq, Repr

/-- `front` is the byte in front of the word, which the steps read where `k-1` or `j` is -1. -/
def letter (front : Byte) (b : Bytes) (i : ℤ) : Byte := if i < 0 then front else b.getD i.toNat 0

def isVowel (c : Byte) : Bool := c ∈ bytes "aeiou"

/-! ### Consonants and vowels -/

/-- A `y` is a consonant at the front and behind a vowel. -/
def cons (b : Bytes) : ℕ → Bool
  | 0 => !isVowel (b.getD 0 0)
  | i+1 =>
    if isVowel (b.getD (i+1) 0) then false
    else if b.getD (i+1) 0 = 121 then !cons b i
    else true

/-- The loops of `m` from offset `i` on, with `rest` offsets to go: behind a vowel the next
consonant counts one. -/
def mFrom (b : Bytes) : Bool → ℕ → ℕ → ℕ
  | _, _, 0 => 0
  | false, i, rest+1 => if cons b i then mFrom b false (i+1) rest else mFrom b true (i+1) rest
  | true, i, rest+1 => if cons b i then mFrom b false (i+1) rest+1 else mFrom b true (i+1) rest

/-- The number of consonant sequences behind a vowel up to `j`. -/
def m (s : Stemmer) : ℕ := mFrom s.b false 0 (s.j+1).toNat

def vowelinstem (s : Stemmer) : Bool := (List.range (s.j+1).toNat).any fun i => !cons s.b i

def doublec (b : Bytes) (j : ℤ) : Bool :=
  if j < 1 then false
  else if b.getD j.toNat 0 ≠ b.getD (j-1).toNat 0 then false
  else cons b j.toNat

def cvc (b : Bytes) (i : ℤ) : Bool :=
  if i < 2 || !cons b i.toNat || cons b (i-1).toNat || !cons b (i-2).toNat then false
  else !(b.getD i.toNat 0 ∈ bytes "wxy")

/-! ### Suffixes -/

/-- `none` is FALSE; TRUE sets `j`. -/
def ends (suffix : Bytes) (s : Stemmer) : Option Stemmer :=
  if suffix.getLast? ≠ some (s.b.getD s.k.toNat 0) then none
  else if s.k+1 < suffix.length then none
  else if (s.b.drop (s.k-suffix.length+1).toNat).take suffix.length ≠ suffix then none
  else some { s with j := s.k-suffix.length }

def setto (suffix : Bytes) (s : Stemmer) : Stemmer :=
  { s with
    b := s.b.take (s.j+1).toNat ++ suffix ++ s.b.drop ((s.j+1).toNat+suffix.length)
    k := s.j+suffix.length }

def r (suffix : Bytes) (s : Stemmer) : Stemmer := if m s > 0 then setto suffix s else s

/-- `if (ends(..)) { r(..); break; }`, one after the other. -/
def firstRule : List (Bytes × Bytes) → Stemmer → Stemmer
  | [], s => s
  | (suffix, replacement) :: rules, s =>
    match ends suffix s with
    | some s => r replacement s
    | none => firstRule rules s

def firstEnd : List Bytes → Stemmer → Option Stemmer
  | [], _ => none
  | suffix :: suffixes, s =>
    match ends suffix s with
    | some s => some s
    | none => firstEnd suffixes s

/-! ### The steps -/

/-- The plurals of `step1ab`. -/
def plural (front : Byte) (s : Stemmer) : Stemmer :=
  if s.b.getD s.k.toNat 0 = 115 then
    match ends (bytes "sses") s with
    | some s => { s with k := s.k-2 }
    | none =>
      match ends (bytes "ies") s with
      | some s => setto (bytes "i") s
      | none => if letter front s.b (s.k-1) ≠ 115 then { s with k := s.k-1 } else s
  else s

/-- What `step1ab` does behind the `k = j` that takes off -ed or -ing. -/
def restore (s : Stemmer) : Stemmer :=
  match ends (bytes "at") s with
  | some s => setto (bytes "ate") s
  | none =>
    match ends (bytes "bl") s with
    | some s => setto (bytes "ble") s
    | none =>
      match ends (bytes "iz") s with
      | some s => setto (bytes "ize") s
      | none =>
        if doublec s.b s.k then
          if s.b.getD (s.k-1).toNat 0 ∈ bytes "lsz" then s else { s with k := s.k-1 }
        else if m s = 1 && cvc s.b s.k then setto (bytes "e") s
        else s

def pastTense (s : Stemmer) : Stemmer :=
  match ends (bytes "eed") s with
  | some s => if m s > 0 then { s with k := s.k-1 } else s
  | none =>
    match firstEnd [bytes "ed", bytes "ing"] s with
    | some s => if vowelinstem s then restore { s with k := s.j } else s
    | none => s

def step1ab (front : Byte) (s : Stemmer) : Stemmer := pastTense (plural front s)

def step1c (s : Stemmer) : Stemmer :=
  match ends (bytes "y") s with
  | some s => if vowelinstem s then { s with b := s.b.set s.k.toNat 105 } else s
  | none => s

/-- The cases of `switch (b[k-1])`. -/
def step2Rules (c : Byte) : List (Bytes × Bytes) :=
  if c = 97 then [(bytes "ational", bytes "ate"), (bytes "tional", bytes "tion")]
  else if c = 99 then [(bytes "enci", bytes "ence"), (bytes "anci", bytes "ance")]
  else if c = 101 then [(bytes "izer", bytes "ize")]
  else if c = 108 then [(bytes "bli", bytes "ble"), (bytes "alli", bytes "al"),
    (bytes "entli", bytes "ent"), (bytes "eli", bytes "e"), (bytes "ousli", bytes "ous")]
  else if c = 111 then [(bytes "ization", bytes "ize"), (bytes "ation", bytes "ate"),
    (bytes "ator", bytes "ate")]
  else if c = 115 then [(bytes "alism", bytes "al"), (bytes "iveness", bytes "ive"),
    (bytes "fulness", bytes "ful"), (bytes "ousness", bytes "ous")]
  else if c = 116 then [(bytes "aliti", bytes "al"), (bytes "iviti", bytes "ive"),
    (bytes "biliti", bytes "ble")]
  else if c = 103 then [(bytes "logi", bytes "log")]
  else []

def step2 (front : Byte) (s : Stemmer) : Stemmer :=
  firstRule (step2Rules (letter front s.b (s.k-1))) s

/-- The cases of `switch (b[k])`. -/
def step3Rules (c : Byte) : List (Bytes × Bytes) :=
  if c = 101 then [(bytes "icate", bytes "ic"), (bytes "ative", []), (bytes "alize", bytes "al")]
  else if c = 105 then [(bytes "iciti", bytes "ic")]
  else if c = 108 then [(bytes "ical", bytes "ic"), (bytes "ful", [])]
  else if c = 115 then [(bytes "ness", [])]
  else []

def step3 (s : Stemmer) : Stemmer := firstRule (step3Rules (s.b.getD s.k.toNat 0)) s

/-- The cases of `switch (b[k-1])` but for -ion. -/
def step4Ends (c : Byte) : List Bytes :=
  if c = 97 then [bytes "al"]
  else if c = 99 then [bytes "ance", bytes "ence"]
  else if c = 101 then [bytes "er"]
  else if c = 105 then [bytes "ic"]
  else if c = 108 then [bytes "able", bytes "ible"]
  else if c = 110 then [bytes "ant", bytes "ement", bytes "ment", bytes "ent"]
  else if c = 111 then [bytes "ou"]
  else if c = 115 then [bytes "ism"]
  else if c = 116 then [bytes "ate", bytes "iti"]
  else if c = 117 then [bytes "ous"]
  else if c = 118 then [bytes "ive"]
  else if c = 122 then [bytes "ize"]
  else []

/-- The suffix that `step4` may take off; -ion only behind an s or a t. -/
def step4Suffix (front : Byte) (s : Stemmer) : Option Stemmer :=
  let c := letter front s.b (s.k-1)
  match if c = 111 then ends (bytes "ion") s else none with
  | some t =>
    if letter front t.b t.j = 115 ∨ letter front t.b t.j = 116 then some t
    else firstEnd (step4Ends c) t
  | none => firstEnd (step4Ends c) s

def step4 (front : Byte) (s : Stemmer) : Stemmer :=
  match step4Suffix front s with
  | some s => if m s > 1 then { s with k := s.j } else s
  | none => s

/-- The final -e of `step5`, with the `j` that `step5` sets. -/
def finalE (s : Stemmer) : Stemmer :=
  if s.b.getD s.k.toNat 0 = 101 then
    if m s > 1 ∨ m s = 1 ∧ cvc s.b (s.k-1) = false then { s with k := s.k-1 } else s
  else s

def finalL (s : Stemmer) : Stemmer :=
  if s.b.getD s.k.toNat 0 = 108 ∧ doublec s.b s.k = true ∧ m s > 1 then { s with k := s.k-1 }
  else s

def step5 (s : Stemmer) : Stemmer := finalL (finalE { s with j := s.k })

/-- The word as it is left, and its last offset. A word of one or two letters is left alone; the
old value of `j` is not read. -/
def stem (front : Byte) (p : Bytes) (j : ℤ) : Bytes × ℤ :=
  if j ≤ 1 then (p, j)
  else
    let s := step5 (step4 front (step3 (step2 front (step1c (step1ab front ⟨p, j, j⟩)))))
    (s.b, s.k)

/-- The stem of a word by itself. -/
def stemOf (front : Byte) (word : Bytes) : Bytes :=
  let (b, k) := stem front word (word.length-1)
  b.take (k+1).toNat

end PorterStemmer
end MsgCourier
