import MsgCourier.Buffer

/-! `cLog`: what is logged is the format of a print that has no arguments. -/
namespace MsgCourier
open CText

/-! ### Printing without arguments -/

/-- A directive other than `%%` reads an argument that is not there. -/
def vsprintf : Bytes → Cxx Bytes
  | [] => pure []
  | [a] => if a = 37 then .error .undefined else pure [a]
  | a :: b :: pFormat =>
    if a ≠ 37 then do
      let text ← vsprintf (b :: pFormat)
      pure (a :: text)
    else if b = 37 then do
      let text ← vsprintf pFormat
      pure (37 :: text)
    else .error .undefined

/-- The formats in which every `%` is one of a pair, with the texts they print. -/
inductive Prints : Bytes → Bytes → Prop
  | nil : Prints [] []
  | byte {a : Byte} {pFormat text : Bytes} (ha : a ≠ 37) (h : Prints pFormat text) :
      Prints (a :: pFormat) (a :: text)
  | percent {pFormat text : Bytes} (h : Prints pFormat text) :
      Prints (37 :: 37 :: pFormat) (37 :: text)

theorem Prints.vsprintf {pFormat text : Bytes} (h : Prints pFormat text) :
    vsprintf pFormat = .ok text := by
  induction h with
  | nil => rfl
  | @byte a pFormat text ha h ih =>
    cases pFormat with
    | nil =>
      cases h
      exact if_neg ha
    | cons b pFormat => rw [MsgCourier.vsprintf, if_pos ha, ih, ok_bind, pure_eq_ok]
  | percent h ih =>
    rw [MsgCourier.vsprintf, if_neg (not_not.mpr rfl), if_pos rfl, ih, ok_bind, pure_eq_ok]

theorem prints_of_vsprintf (pFormat text : Bytes) (h : vsprintf pFormat = .ok text) :
    Prints pFormat text := by
  induction pFormat using vsprintf.induct generalizing text with
  | case1 =>
    obtain rfl := Except.ok.inj h
    exact Prints.nil
  | case2 => cases h
  | case3 a ha =>
    rw [vsprintf, if_neg ha] at h
    obtain rfl := Except.ok.inj h
    exact Prints.byte ha Prints.nil
  | case4 a b pFormat ha ih =>
    rw [vsprintf, if_pos ha] at h
    obtain ⟨rest, hrest, hret⟩ := bind_eq_ok.mp h
    obtain rfl := Except.ok.inj hret
    exact Prints.byte ha (ih rest hrest)
  | case5 a pFormat ha ih =>
    obtain rfl := not_not.mp ha
    rw [vsprintf, if_neg ha, if_pos rfl] at h
    obtain ⟨rest, hrest, hret⟩ := bind_eq_ok.mp h
    obtain rfl := Except.ok.inj hret
    exact Prints.percent (ih rest hrest)
  | case6 a b pFormat ha hb =>
    rw [vsprintf, if_neg ha, if_neg hb] at h
    cases h

/-- A text without `%` is printed as it is. -/
theorem Prints.self {text : Bytes} (h : 37 ∉ text) : Prints text text := by
  induction text with
  | nil => exact Prints.nil
  | cons a text ih =>
    have ha : a ≠ 37 := fun ha => h (ha ▸ List.mem_cons_self)
    exact Prints.byte ha (ih fun ht => h (List.mem_cons_of_mem a ht))

/-! ### The log -/

def logBufSz : ℕ := 256000

/-- Where the log goes, and whether `server.log` can be opened. -/
structure Log where
  displayLogging : Bool := false
  fileLogging : Bool := false
  fileOpens : Bool := true

namespace Log

/-- The text is printed into `m_buf` and, for the console, once more with the time in front, the end
of the line and, as it is a long one, three dots. A file that was not opened is closed as well. -/
def write (x : Log) (m_buf : Bytes) : Cxx Unit :=
  if logBufSz < m_buf.length+1 then .error .undefined
  else if x.displayLogging ∧ logBufSz < m_buf.length+18 then .error .undefined
  else if x.fileLogging ∧ ¬ x.fileOpens then .error .undefined
  else pure ()

def log (x : Log) (pFormat : Bytes) : Cxx Unit := do
  let m_buf ← vsprintf pFormat
  x.write m_buf

/-- `LogEvent`: what was printed is the format of `syslog`. -/
def logEvent (pFormat : Bytes) : Cxx Unit := do
  let m_buf ← vsprintf pFormat
  if logBufSz < m_buf.length+1 then .error .undefined
  else
    let _ ← vsprintf m_buf
    pure ()

/-- `LOGALL`: the line with the place, which is logged first, adds nothing to this. -/
def logAll {α : Type} (x : Log) (logMsg : Bytes) : Cxx α := do
  x.log logMsg
  logEvent logMsg
  .error .charPtr

theorem write_eq_ok_iff (x : Log) (text : Bytes) : x.write text = .ok () ↔
    text.length+(if x.displayLogging then 18 else 1) ≤ logBufSz ∧
      (x.fileLogging = true → x.fileOpens = true) := by
  unfold write
  constructor
  · intro h
    split_ifs at h with hsize hdisplay hfile
    refine ⟨?_, fun hlog => ?_⟩
    · split_ifs with hshown
      · exact not_lt.mp fun hlt => hdisplay ⟨hshown, hlt⟩
      · exact not_lt.mp hsize
    · by_contra hopen
      exact hfile ⟨hlog, hopen⟩
  · rintro ⟨hsize, hfile⟩
    have hbuf : ¬ logBufSz < text.length+1 := by split_ifs at hsize <;> omega
    have hshown : ¬ (x.displayLogging ∧ logBufSz < text.length+18) := by
      rintro ⟨hdisplay, hlt⟩
      rw [if_pos hdisplay] at hsize
      omega
    rw [if_neg hbuf, if_neg hshown, if_neg fun h => h.2 (hfile h.1), pure_eq_ok]

/-- What the log takes. -/
def Takes (x : Log) (pFormat : Bytes) : Prop :=
  ∃ text, Prints pFormat text ∧ text.length+(if x.displayLogging then 18 else 1) ≤ logBufSz ∧
    (x.fileLogging = true → x.fileOpens = true)

theorem log_eq_ok_iff (x : Log) (pFormat : Bytes) : x.log pFormat = .ok () ↔ x.Takes pFormat := by
  constructor
  · intro h
    obtain ⟨text, htext, hwrite⟩ := bind_eq_ok.mp h
    exact ⟨text, prints_of_vsprintf _ _ htext, (x.write_eq_ok_iff text).mp hwrite⟩
  · rintro ⟨text, htext, hfits⟩
    exact bind_eq_ok.mpr ⟨text, htext.vsprintf, (x.write_eq_ok_iff text).mpr hfits⟩

theorem takes_of_notMem (x : Log) {text : Bytes} (h : 37 ∉ text) (hsize : text.length+18 ≤ logBufSz)
    (hfile : x.fileLogging = false) : x.Takes text := by
  refine ⟨text, Prints.self h, ?_, fun hlog => ?_⟩
  · split_ifs <;> omega
  · rw [hfile] at hlog
    cases hlog

/-- `LOGALL` does not return. -/
theorem logAll_ne_ok {α : Type} (x : Log) (logMsg : Bytes) (a : α) :
    (x.logAll logMsg : Cxx α) ≠ .ok a := by
  intro h
  obtain ⟨_, _, h⟩ := bind_eq_ok.mp h
  obtain ⟨_, _, h⟩ := bind_eq_ok.mp h
  cases h

end Log
end MsgCourier
