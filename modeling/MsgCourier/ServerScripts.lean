import MsgCourier.Log
import MsgCourier.WebRequest
import MsgCourier.TclWords

/-! The scripts in a page: which texts a request hands to the interpreter. -/
namespace MsgCourier
open ListSearch CText TclWords

/-! ### The interpreter -/

/-- The result of a script, or the text of its error. -/
abbrev TclInterpreter := Bytes → Except Bytes Bytes

namespace ScriptEngine

def wrapped (sNamespace sScriptInput : Bytes) : Bytes :=
  bytes "namespace eval " ++ sNamespace ++ bytes " \x7b\n" ++ sScriptInput ++ bytes "\n\x7d"

/-- The handler of an error ends in `LOGALL`, so what stands behind that is not reached. -/
def execute (log : Log) (interp : TclInterpreter) (sNamespace sScriptInput : Bytes)
    (silent : Bool) : Cxx Bytes :=
  match interp (wrapped sNamespace sScriptInput) with
  | .ok result => pure (if silent then [] else result)
  | .error message => log.logAll (cstr message)

/-- It returns for the scripts that run without an error. -/
theorem execute_ok_iff (log : Log) (interp : TclInterpreter) (sNamespace sScriptInput : Bytes)
    (silent : Bool) : (∃ output, execute log interp sNamespace sScriptInput silent = .ok output) ↔
      (interp (wrapped sNamespace sScriptInput)).isOk = true := by
  unfold execute
  cases interp (wrapped sNamespace sScriptInput) with
  | ok result => exact iff_of_true ⟨_, rfl⟩ rfl
  | error message =>
    exact iff_of_false (fun ⟨output, h⟩ => log.logAll_ne_ok _ output h) Bool.false_ne_true

end ScriptEngine

/-! ### The parameters -/

def cgiSeparator (b : Byte) : Bool := b == 63 || b == 38

/-- A token without a `=` is passed over. -/
def cgiParameters (cgiParams : Bytes) : List (Bytes × Bytes) :=
  (tokenizer cgiSeparator cgiParams).filterMap fun sTemp =>
    (firstOcc [61] sTemp).map fun i => (sTemp.take i, sTemp.drop (i+1))

def setVar (parameter : Bytes × Bytes) : Bytes :=
  bytes "set " ++ parameter.1 ++ bytes " \x7b" ++ parameter.2 ++ bytes "\x7d"

/-! ### The blocks -/

def scriptHeader : Bytes := bytes "<?mc"

def scriptTail : Bytes := bytes "?>"

/-- A ` -silent` in the first line is a directive, not a part of the script. -/
def scriptOf (body : Bytes) : Bytes × Bool :=
  match firstOcc [10] body with
  | none => (body, false)
  | some endOfFirstLine =>
    if occursIn (bytes " -silent") (body.take endOfFirstLine) then
      let beginDirective := (firstOcc (bytes " -silent") body).getD 0
      (body.take beginDirective ++ body.drop (beginDirective+8), true)
    else (body, false)

/-- The first block of the response: what stands in front of it, its body and what follows. -/
def nextBlock (response : Bytes) : Option (Bytes × Bytes × Bytes) := do
  let index ← strstr response scriptHeader
  let k ← strstr (response.drop index) scriptTail
  some (response.take index, (response.drop (index+4)).take (k-4), response.drop (index+k+2))

def blockOutput (log : Log) (interp : TclInterpreter) (sNamespace body : Bytes) : Cxx Bytes :=
  ScriptEngine.execute log interp sNamespace (scriptOf body).1 (scriptOf body).2

/-- The commands that set the parameters, up to the first that fails. -/
def setParameters (log : Log) (interp : TclInterpreter) (sNamespace : Bytes) :
    List (Bytes × Bytes) → List Bytes × Cxx Unit
  | [] => ([], pure ())
  | parameter :: parameters =>
    match ScriptEngine.execute log interp sNamespace (setVar parameter) false with
    | .error e => ([setVar parameter], .error e)
    | .ok _ =>
      let (commands, result) := setParameters log interp sNamespace parameters
      (setVar parameter :: commands, result)

/-- The loop in `n` rounds: for each block the text in front of it and the script that is executed,
and the response at the end or the exception of the last script. Each round searches the response
from its start. -/
def scriptRounds (log : Log) (interp : TclInterpreter) (sNamespace : Bytes) :
    ℕ → Bytes → Option (List (Bytes × Bytes) × Cxx Bytes)
  | 0, _ => none
  | n+1, response =>
    match nextBlock response with
    | none => some ([], pure response)
    | some (front, body, rest) =>
      match blockOutput log interp sNamespace body with
      | .error e => some ([(front, (scriptOf body).1)], .error e)
      | .ok output =>
        (scriptRounds log interp sNamespace n (front ++ output ++ rest)).map
          fun (rounds, result) => ((front, (scriptOf body).1) :: rounds, result)

/-- The texts handed to the interpreter, the commands that set the parameters and then the scripts,
and what the request is after them. -/
structure ScriptRun where
  commands : List Bytes
  rounds : List (Bytes × Bytes)
  result : Cxx WebRequestHandler

/-- The part of `ProcessServerSideScripts` that executes scripts. An exception of `Execute` leaves
it. It has no result if the loop takes more than `n` rounds. -/
def WebRequestHandler.serverSideScripts (h : WebRequestHandler) (log : Log)
    (interp : TclInterpreter) (n : ℕ) : Option ScriptRun :=
  if (strstr h.response scriptHeader).isSome then
    let parameters := cgiParameters h.cgiParams
    match setParameters log interp h.sInterpreterNamespace parameters with
    | (commands, .error e) => some ⟨commands, [], .error e⟩
    | (commands, .ok _) =>
      (scriptRounds log interp h.sInterpreterNamespace n h.response).map fun (rounds, result) =>
        ⟨commands, rounds, do
          let response ← result
          pure { h with cgi := parameters.map Prod.fst, response }⟩
  else some ⟨[], [], pure h⟩

/-! ### The stored page -/

/-- The blocks of a page, each with its body and the text up to the next block. -/
def splitPage : ℕ → Bytes → Bytes × List (Bytes × Bytes)
  | 0, page => (page, [])
  | n+1, page =>
    match firstOcc scriptHeader page with
    | none => (page, [])
    | some index =>
      match firstOcc scriptTail (page.drop index) with
      | none => (page, [])
      | some k =>
        let (text, blocks) := splitPage n (page.drop (index+k+2))
        (page.take index, ((page.drop (index+4)).take (k-4), text) :: blocks)

def pageFront (page : Bytes) : Bytes := (splitPage page.length page).1

def pageBlocks (page : Bytes) : List (Bytes × Bytes) := (splitPage page.length page).2

def blockText (block : Bytes × Bytes) : Bytes :=
    scriptHeader ++ (block.1 ++ (scriptTail ++ block.2))

def joinPage (front : Bytes) (blocks : List (Bytes × Bytes)) : Bytes :=
  front ++ (blocks.map blockText).flatten

/-- The blocks of the page in order: each is executed behind the outputs of those before it. -/
def pageRounds (log : Log) (interp : TclInterpreter) (sNamespace : Bytes) :
    Bytes → List (Bytes × Bytes) → List (Bytes × Bytes)
  | _, [] => []
  | front, (body, text) :: blocks =>
    let output := (blockOutput log interp sNamespace body).toOption.getD []
    (front, (scriptOf body).1) :: pageRounds log interp sNamespace (front ++ output ++ text) blocks

/-- No block is missed and none arises from the outputs: in front of a block of the page there is
neither a NUL nor a block header, also not one to which an output and the text around it add up,
only the last script may fail, and there is no block left when the blocks of the page are gone. -/
def OutputsInert (log : Log) (interp : TclInterpreter) (sNamespace : Bytes) :
    Bytes → List (Bytes × Bytes) → Prop
  | front, [] => nextBlock front = none
  | front, (body, text) :: blocks =>
    (0 ∉ front ∧ 0 ∉ body ∧ occursIn scriptHeader front = false) ∧
      match blockOutput log interp sNamespace body with
      | .ok output => OutputsInert log interp sNamespace (front ++ output ++ text) blocks
      | .error _ => blocks = []

/-- A command that sets a parameter runs without an error. -/
def Runs (interp : TclInterpreter) (sNamespace : Bytes) (parameter : Bytes × Bytes) : Prop :=
  (interp (ScriptEngine.wrapped sNamespace (setVar parameter))).isOk = true

instance (interp : TclInterpreter) (sNamespace : Bytes) (parameter : Bytes × Bytes) :
    Decidable (Runs interp sNamespace parameter) := inferInstanceAs (Decidable (_ = _))

/-- Only the last text that is executed may fail: every command runs, except perhaps the last one of
a page without blocks. -/
def CommandsRun (interp : TclInterpreter) (sNamespace : Bytes) (parameters : List (Bytes × Bytes))
    (blocks : List (Bytes × Bytes)) : Prop :=
  (∀ parameter ∈ parameters.dropLast, Runs interp sNamespace parameter) ∧
    (blocks ≠ [] → ∀ parameter ∈ parameters, Runs interp sNamespace parameter)

/-! ### Finding blocks -/

theorem scriptHeader_ne_nil : scriptHeader ≠ [] := by decide

theorem scriptTail_ne_nil : scriptTail ≠ [] := by decide

/-- The body of a block ends with the first tail. -/
def ClosedBody (body : Bytes) : Prop := firstOcc scriptTail (body ++ scriptTail) = some body.length

theorem firstOcc_skip {pat l : Bytes} {a : Byte} (h : ¬ pat <+: a :: l) :
    firstOcc pat (a :: l) = (firstOcc pat l).map (· + 1) := if_neg h

/-- No tail starts inside a header. -/
theorem firstOcc_tail_header (r : Bytes) :
    firstOcc scriptTail (scriptHeader ++ r) = (firstOcc scriptTail r).map (· + 4) := by
  have hne {a b : Byte} {l : Bytes} (h : a ≠ 63 ∨ b ≠ 62) : ¬ scriptTail <+: a :: b :: l := by
    intro hprefix
    obtain ⟨h₁, hprefix⟩ := List.cons_prefix_cons.mp hprefix
    obtain ⟨h₂, _⟩ := List.cons_prefix_cons.mp hprefix
    exact h.elim (fun h => h h₁.symm) fun h => h h₂.symm
  have hlast : ¬ scriptTail <+: 99 :: r := fun hprefix =>
    absurd (List.cons_prefix_cons.mp hprefix).1 (by decide)
  calc
    firstOcc scriptTail (scriptHeader ++ r) = firstOcc scriptTail (60 :: 63 :: 109 :: 99 :: r) :=
    rfl
    _ = ((((firstOcc scriptTail r).map (· + 1)).map (· + 1)).map (· + 1)).map (· + 1) := by
      rw [firstOcc_skip (hne (by decide)), firstOcc_skip (hne (by decide)),
        firstOcc_skip (hne (by decide)), firstOcc_skip hlast]
    _ = (firstOcc scriptTail r).map (· + 4) := by
      simp only [Option.map_map]
      rfl

theorem firstOcc_tail_block {body : Bytes} (hbody : ClosedBody body) (r : Bytes) :
    firstOcc scriptTail (scriptHeader ++ (body ++ (scriptTail ++ r))) = some (body.length+4) := by
  have hrest : firstOcc scriptTail (body ++ (scriptTail ++ r)) = some body.length := by
    have happ := firstOcc_append scriptTail_ne_nil hbody r
    rwa [List.append_assoc] at happ
  rw [firstOcc_tail_header, hrest]
  rfl

theorem nextBlock_block {front body : Bytes} (hfront : 0 ∉ front) (hbody : 0 ∉ body)
    (hheader : occursIn scriptHeader front = false) (hclosed : ClosedBody body) (r : Bytes) :
    nextBlock (front ++ (scriptHeader ++ (body ++ (scriptTail ++ r)))) = some (front, body, r) := by
  have hfind : strstr (front ++ (scriptHeader ++ (body ++ (scriptTail ++ r)))) scriptHeader =
      some front.length := by
    have h0 : 0 ∉ front ++ scriptHeader := List.not_mem_append hfront (by decide)
    have hself := firstOcc_append_self (by decide : (60 : Byte) ∉ [63, 109, 99]) hheader []
    rw [List.append_nil] at hself
    have happ := strstr_append scriptHeader_ne_nil ((strstr_of_zero_notMem h0).trans hself)
      (body ++ (scriptTail ++ r))
    rwa [List.append_assoc] at happ
  have htail : strstr (scriptHeader ++ (body ++ (scriptTail ++ r))) scriptTail =
      some (body.length+4) := by
    have h0 : 0 ∉ scriptHeader ++ (body ++ scriptTail) :=
      List.not_mem_append (by decide) (List.not_mem_append hbody (by decide))
    have hocc := firstOcc_tail_block hclosed []
    rw [List.append_nil] at hocc
    have happ := strstr_append scriptTail_ne_nil ((strstr_of_zero_notMem h0).trans hocc) r
    rwa [List.append_assoc, List.append_assoc] at happ
  have hdrop₄ : (front ++ (scriptHeader ++ (body ++ (scriptTail ++ r)))).drop (front.length+4) =
      body ++ (scriptTail ++ r) := by
    rw [← List.drop_drop, List.drop_left]
    rfl
  have hdrop : (front ++ (scriptHeader ++ (body ++ (scriptTail ++ r)))).drop
      (front.length+(body.length+4)+2) = r := by
    rw [show front.length+(body.length+4)+2 = front.length+4+(body.length+2) by omega,
      ← List.drop_drop, hdrop₄, ← List.drop_drop, List.drop_left]
    rfl
  unfold nextBlock
  rw [hfind]
  dsimp only [Option.bind_eq_bind, Option.bind_some]
  rw [List.drop_left, htail]
  dsimp only [Option.bind_some]
  rw [List.take_left, hdrop₄, Nat.add_sub_cancel, List.take_left, hdrop]

theorem zero_notMem_of_le_cstr {s t : Bytes} (h : s.length ≤ (cstr (s ++ t)).length) : 0 ∉ s := by
  have hs : s = (cstr (s ++ t)).take s.length := by
    rw [← cstr_take, List.take_left]
    have hlen : (cstr s).length = s.length := by
      refine le_antisymm (length_cstr_le s) ?_
      have htake := congrArg List.length (cstr_take (s ++ t) s.length)
      rw [List.take_left, List.length_take] at htake
      omega
    have htake := take_length_cstr s
    rw [hlen, List.take_length] at htake
    exact htake
  rw [hs]
  exact fun h0 => zero_notMem_cstr _ (List.mem_of_mem_take h0)

/-- Where the first block is found right behind `front`, nothing in front of it hides it. -/
theorem of_nextBlock_block {front body b r r' : Bytes} (hclosed : ClosedBody body)
    (h : nextBlock (front ++ (scriptHeader ++ (body ++ (scriptTail ++ r)))) = some (front, b, r')) :
    0 ∉ front ∧ 0 ∉ body ∧ occursIn scriptHeader front = false := by
  unfold nextBlock at h
  obtain ⟨index, hindex, h⟩ := Option.bind_eq_some_iff.mp h
  obtain ⟨k, hk, h⟩ := Option.bind_eq_some_iff.mp h
  obtain ⟨hfront, _⟩ := Prod.mk.inj (Option.some.inj h)
  have hle := strstr_le hindex
  obtain rfl : index = front.length := by
    have hlen := congrArg List.length hfront
    rw [List.length_take] at hlen
    omega
  rw [List.drop_left] at hk
  -- the tail is seen, so there is no NUL in front of it
  have hvisible : scriptHeader.length + body.length ≤
      (cstr ((scriptHeader ++ body) ++ (scriptTail ++ r))).length := by
    have hocc := firstOcc_tail_block hclosed r
    rw [firstOcc_of_strstr scriptTail_ne_nil hk, Option.some.injEq] at hocc
    have hcstr := firstOcc_le _ hk
    rw [← List.append_assoc, hocc] at hcstr
    have htail : scriptTail.length = 2 := rfl
    have hheader : scriptHeader.length = 4 := rfl
    omega
  have hfrontvisible := firstOcc_le _ hindex
  refine ⟨zero_notMem_of_le_cstr (le_trans (Nat.le_add_right _ _) hfrontvisible), ?_, ?_⟩
  · rw [← List.length_append] at hvisible
    exact fun h0 => zero_notMem_of_le_cstr hvisible (List.mem_append_right _ h0)
  · have hnone := firstOcc_take_none scriptHeader_ne_nil
      (firstOcc_of_strstr scriptHeader_ne_nil hindex) (Nat.lt_add_of_pos_right (by decide))
    rw [List.take_left] at hnone
    rw [occursIn, hnone]
    rfl

/-! ### The rounds of the loop -/

variable {log : Log} {interp : TclInterpreter} {sNamespace : Bytes}

theorem joinPage_cons (front body text : Bytes) (blocks : List (Bytes × Bytes)) :
    joinPage front ((body, text) :: blocks) =
      front ++ (scriptHeader ++ (body ++ (scriptTail ++ joinPage text blocks))) := by
  simp only [joinPage, List.map_cons, List.flatten_cons, blockText, List.append_assoc]

theorem joinPage_append (front text : Bytes) (blocks : List (Bytes × Bytes)) :
    front ++ joinPage text blocks = joinPage (front ++ text) blocks := by
  simp only [joinPage, List.append_assoc]

section FirstBlock

variable {front body text : Bytes} {blocks : List (Bytes × Bytes)}

/-- The round that sees the first block of a page. -/
theorem scriptRounds_block (hbody : ClosedBody body) (hfront : 0 ∉ front) (h0 : 0 ∉ body)
    (hheader : occursIn scriptHeader front = false) (n : ℕ) :
    scriptRounds log interp sNamespace (n+1) (joinPage front ((body, text) :: blocks)) =
      match blockOutput log interp sNamespace body with
      | .error e => some ([(front, (scriptOf body).1)], .error e)
      | .ok output =>
        (scriptRounds log interp sNamespace n (joinPage (front ++ output ++ text) blocks)).map
          fun (rounds, result) => ((front, (scriptOf body).1) :: rounds, result) := by
  rw [joinPage_cons, scriptRounds, nextBlock_block hfront h0 hheader hbody]
  dsimp only
  simp only [joinPage_append]

/-- A first round with the front of the page has found the first block. -/
theorem seen_of_scriptRounds (hbody : ClosedBody body) {n : ℕ} {script : Bytes}
    {rounds : List (Bytes × Bytes)} {result : Cxx Bytes}
    (h : scriptRounds log interp sNamespace (n+1) (joinPage front ((body, text) :: blocks)) =
      some ((front, script) :: rounds, result)) :
    0 ∉ front ∧ 0 ∉ body ∧ occursIn scriptHeader front = false := by
  rw [joinPage_cons, scriptRounds] at h
  split at h
  · cases h
  · rename_i f b r hnext
    have hfront : f = front := by
      split at h
      · exact congrArg (fun l => ((l.head?.map Prod.fst).getD []))
          (Prod.mk.inj (Option.some.inj h)).1
      · obtain ⟨_, _, heq⟩ := Option.map_eq_some_iff.mp h
        exact (Prod.mk.inj (List.cons.inj (Prod.mk.inj heq).1).1).1
    rw [hfront] at hnext
    exact of_nextBlock_block hbody hnext

end FirstBlock

variable (log interp sNamespace) in
/-- The loop executes the blocks of a page, each behind the outputs of those before it, if and only
if the outputs add up to no other block and no script but the last one fails. -/
theorem scriptRounds_iff {blocks : List (Bytes × Bytes)} (hclosed : ∀ b ∈ blocks, ClosedBody b.1)
    (front : Bytes) :
    (∃ n result, scriptRounds log interp sNamespace n (joinPage front blocks) =
      some (pageRounds log interp sNamespace front blocks, result)) ↔
      OutputsInert log interp sNamespace front blocks := by
  induction blocks generalizing front with
  | nil =>
    have hpage : joinPage front [] = front := by simp [joinPage]
    rw [hpage, pageRounds, OutputsInert]
    constructor
    · rintro ⟨n, result, h⟩
      cases n with
      | zero => cases h
      | succ n =>
        rw [scriptRounds] at h
        split at h
        · assumption
        · split at h
          · cases h
          · obtain ⟨_, _, heq⟩ := Option.map_eq_some_iff.mp h
            cases heq
    · intro hnone
      refine ⟨1, .ok front, ?_⟩
      rw [scriptRounds, hnone]
      rfl
  | cons block blocks ih =>
    obtain ⟨body, text⟩ := block
    have hbody := hclosed (body, text) List.mem_cons_self
    have hrest := ih (fun b hb => hclosed b (List.mem_cons_of_mem _ hb))
    rw [pageRounds, OutputsInert]
    constructor
    · rintro ⟨n, result, h⟩
      cases n with
      | zero => cases h
      | succ n =>
        have hseen := seen_of_scriptRounds hbody h
        refine ⟨hseen, ?_⟩
        rw [scriptRounds_block hbody hseen.1 hseen.2.1 hseen.2.2] at h
        cases hout : blockOutput log interp sNamespace body with
        | error e =>
          rw [hout] at h
          obtain ⟨hlist, -⟩ := Prod.mk.inj (Option.some.inj h)
          have hnone := (List.cons.inj hlist).2
          cases blocks with
          | nil => rfl
          | cons b blocks => cases hnone
        | ok output =>
          rw [hout] at h
          obtain ⟨⟨rounds, result'⟩, hrounds, heq⟩ := Option.map_eq_some_iff.mp h
          obtain ⟨hlist, rfl⟩ := Prod.mk.inj heq
          obtain ⟨-, rfl⟩ := List.cons.inj hlist
          exact (hrest _).mp ⟨n, result', hrounds⟩
    · rintro ⟨⟨hf, hb, hh⟩, h⟩
      cases hout : blockOutput log interp sNamespace body with
      | error e =>
        rw [hout] at h
        obtain rfl : blocks = [] := h
        refine ⟨1, .error e, ?_⟩
        rw [scriptRounds_block hbody hf hb hh, hout]
        rfl
      | ok output =>
        rw [hout] at h
        obtain ⟨n, result, hrounds⟩ := (hrest _).mpr h
        refine ⟨n+1, result, ?_⟩
        rw [scriptRounds_block hbody hf hb hh, hout]
        dsimp only
        rw [hrounds]
        rfl

theorem splitPage_spec (n : ℕ) (page : Bytes) :
    joinPage (splitPage n page).1 (splitPage n page).2 = page ∧
      ∀ b ∈ (splitPage n page).2, ClosedBody b.1 := by
  have hnone (page : Bytes) :
      joinPage page [] = page ∧ ∀ b ∈ ([] : List (Bytes × Bytes)), ClosedBody b.1 :=
    ⟨by simp [joinPage], nofun⟩
  induction n generalizing page with
  | zero => exact hnone page
  | succ n ih =>
    rw [splitPage]
    split
    · exact hnone page
    · rename_i index hindex
      split
      · exact hnone page
      · rename_i k hk
        -- behind the header, the tail ends the body
        obtain ⟨x, hx⟩ := ((firstOcc_eq_some_iff scriptHeader_ne_nil).mp hindex).1
        rw [← hx, firstOcc_tail_header] at hk
        obtain ⟨j, hj, rfl⟩ := Option.map_eq_some_iff.mp hk
        have hpage : page = page.take index ++ (scriptHeader ++ x) := by
          rw [hx, List.take_append_drop]
        have hdrop₄ : page.drop (index+4) = x := by
          rw [← List.drop_drop, ← hx]
          rfl
        have hdrop : page.drop (index+(j+4)+2) = x.drop (j+2) := by
          rw [show index+(j+4)+2 = index+4+(j+2) by omega, ← List.drop_drop, hdrop₄]
        have hmatch := firstOcc_match scriptTail_ne_nil hj
        have htail : x.take (j+2) = x.take j ++ scriptTail := by
          have hle := firstOcc_le _ hj
          have hlen : j+2 = (x.take j ++ scriptTail).length := by
            rw [List.length_append, List.length_take, min_eq_left (by omega)]
            rfl
          conv_lhs => rw [hmatch]
          rw [hlen, List.take_left]
        obtain ⟨hjoin, hclosed⟩ := ih (x.drop (j+2))
        dsimp only
        rw [hdrop₄, hdrop, Nat.add_sub_cancel]
        constructor
        · rw [joinPage_cons, hjoin]
          calc
            page.take index ++ (scriptHeader ++ (x.take j ++ (scriptTail ++ x.drop (j+2))))
              = page.take index ++ (scriptHeader ++ (x.take j ++ scriptTail ++ x.drop (j+2))) := by
                rw [List.append_assoc]
            _ = page.take index ++ (scriptHeader ++ x) := by rw [← htail, List.take_append_drop]
            _ = page := hpage.symm
        · intro b hb
          rcases List.mem_cons.mp hb with rfl | hb
          · rw [ClosedBody, ← htail]
            have hcut := firstOcc_take scriptTail_ne_nil hj (le_refl (j+2))
            have hle := firstOcc_le _ hj
            rw [hcut, List.length_take, min_eq_left (by omega)]
          · exact hclosed b hb

theorem pageBlocks_spec (page : Bytes) : joinPage (pageFront page) (pageBlocks page) = page ∧
    ∀ b ∈ pageBlocks page, ClosedBody b.1 := splitPage_spec page.length page

variable (log interp sNamespace) in
theorem pageRounds_scripts (front : Bytes) (blocks : List (Bytes × Bytes)) :
    (pageRounds log interp sNamespace front blocks).map Prod.snd =
      blocks.map fun b => (scriptOf b.1).1 := by
  induction blocks generalizing front with
  | nil => rfl
  | cons b blocks ih =>
    obtain ⟨body, text⟩ := b
    rw [pageRounds, List.map_cons, List.map_cons, ih]

/-- A page without blocks has none that the loop finds. -/
theorem nextBlock_of_pageBlocks {page : Bytes} (h : pageBlocks page = []) :
    nextBlock page = none := by
  unfold nextBlock
  cases hindex : strstr page scriptHeader with
  | none => rfl
  | some index =>
    dsimp only [Option.bind_eq_bind, Option.bind_some]
    cases hk : strstr (page.drop index) scriptTail with
    | none => rfl
    | some k =>
      have hle := strstr_le hindex
      obtain ⟨n, hn⟩ : ∃ n, page.length = n+1 :=
        ⟨page.length-1, by simp only [scriptHeader, bytes] at hle; simp at hle; omega⟩
      rw [pageBlocks, hn, splitPage, firstOcc_of_strstr scriptHeader_ne_nil hindex] at h
      dsimp only at h
      rw [firstOcc_of_strstr scriptTail_ne_nil hk] at h
      cases h

/-! ### The commands for the parameters -/

/-- Tcl reads what `Execute` hands over as a `namespace eval` of the command, and the command as
the assignment of the value. -/
def ReadsAsAssignment (sNamespace : Bytes) (parameter : Bytes × Bytes) : Prop :=
  readScript (ScriptEngine.wrapped sNamespace (setVar parameter)) =
      some [[bytes "namespace", bytes "eval", sNamespace, 10 :: (setVar parameter ++ [10])]] ∧
    readScript (setVar parameter) = some [[bytes "set", parameter.1, parameter.2]]

/-- Name and value can stand in the command as they are. -/
def SafeParameter (parameter : Bytes × Bytes) : Prop :=
  PlainWord parameter.1 ∧ Balanced parameter.1 ∧ Balanced parameter.2

instance (parameter : Bytes × Bytes) : Decidable (SafeParameter parameter) :=
  inferInstanceAs (Decidable (_ ∧ _))

theorem setVar_eq (parameter : Bytes × Bytes) :
    setVar parameter = commandText [bytes "set"] parameter.1 parameter.2 := by
  simp [setVar, commandText, bytes]

theorem wrapped_eq (sScriptInput : Bytes) : ScriptEngine.wrapped sNamespace sScriptInput =
    commandText [bytes "namespace", bytes "eval"] sNamespace (10 :: (sScriptInput ++ [10])) := by
  simp [ScriptEngine.wrapped, commandText, bytes]

/-- A namespace is named by a UUID text. -/
theorem plainWord_of_uuid {s : Bytes} (hs : s ≠ [])
    (hdigits : ∀ b ∈ s, URL.isxdigit b = true ∨ b = 45) : PlainWord s := by
  have hbyte {b : Byte} (hb : URL.isxdigit b = true ∨ b = 45) :
      isSep b = false ∧ b ≠ 91 ∧ b ≠ 92 ∧ b ≠ 36 ∧ b ≠ 123 ∧ b ≠ 34 := by
    refine ⟨?_, ?_, ?_, ?_, ?_, ?_⟩
    · by_contra hsep
      rw [Bool.not_eq_false, isSep_iff] at hsep
      rcases hsep with rfl | rfl | rfl | rfl | rfl | rfl | rfl <;> exact absurd hb (by decide)
    all_goals
      rintro rfl
      exact absurd hb (by decide)
  have hplain : plainBytes s = true := by
    clear hs
    induction s with
    | nil => rfl
    | cons b s ih =>
      obtain ⟨hsep, h91, h92, h36, _⟩ := hbyte (hdigits b List.mem_cons_self)
      have hrest := ih fun c hc => hdigits c (List.mem_cons_of_mem _ hc)
      simp [plainBytes, substitutes, hsep, h91, h92, h36, hrest]
  obtain ⟨b, t, rfl⟩ := List.exists_cons_of_ne_nil hs
  obtain ⟨_, _, _, _, h123, h34⟩ := hbyte (hdigits b List.mem_cons_self)
  exact ⟨hplain, hs, fun h => h123 (Option.some.inj h), fun h => h34 (Option.some.inj h)⟩

theorem braceDepth_setVar {parameter : Bytes × Bytes} {d : ℕ}
    (hname : braceDepth 0 parameter.1 = some d) (hvalue : Balanced parameter.2) :
    braceDepth 0 (10 :: (setVar parameter ++ [10])) = some d := by
  have hinside := braceDepth_add hvalue (d+1)
  rw [Nat.zero_add] at hinside
  calc
    braceDepth 0 (10 :: (setVar parameter ++ [10]))
      = braceDepth 0
          (bytes "\nset " ++ (parameter.1 ++ (bytes " \x7b" ++ (parameter.2 ++ [125, 10])))) := by
        simp [setVar, bytes]
    _ = braceDepth 0 (parameter.1 ++ (bytes " \x7b" ++ (parameter.2 ++ [125, 10]))) :=
        braceDepth_append rfl _
    _ = braceDepth d (bytes " \x7b" ++ (parameter.2 ++ [125, 10])) := braceDepth_append hname _
    _ = braceDepth (d+1) (parameter.2 ++ [125, 10]) := braceDepth_append rfl _
    _ = braceDepth (d+1) [125, 10] := braceDepth_append hinside _
    _ = some d := by simp [braceDepth, deeper]

theorem readsAsAssignment_iff (hns : PlainWord sNamespace) (parameter : Bytes × Bytes) :
    ReadsAsAssignment sNamespace parameter ↔ SafeParameter parameter := by
  have hplain : ∀ v ∈ [bytes "eval"], PlainWord v := by decide
  have houter := readScript_commandText_iff (w := bytes "namespace") (by decide) hplain (by decide)
    sNamespace (10 :: (setVar parameter ++ [10]))
  have hset : ∀ v ∈ ([] : List Bytes), PlainWord v := nofun
  have hinner := readScript_commandText_iff (w := bytes "set") (by decide) hset (by decide)
    parameter.1 parameter.2
  rw [ReadsAsAssignment, wrapped_eq, SafeParameter]
  constructor
  · rintro ⟨hwrapped, hcommand⟩
    rw [setVar_eq] at hcommand
    obtain ⟨hname, hvalue⟩ := hinner.mp hcommand
    refine ⟨hname, ?_, hvalue⟩
    have hdepth : Balanced (10 :: (setVar parameter ++ [10])) := (houter.mp hwrapped).2
    rcases hd : braceDepth 0 parameter.1 with _ | d
    · have hnone : braceDepth 0 (10 :: (setVar parameter ++ [10])) = none :=
        calc
          braceDepth 0 (10 :: (setVar parameter ++ [10]))
            = braceDepth 0 (bytes "\nset " ++ (parameter.1 ++
                (bytes " \x7b" ++ (parameter.2 ++ [125, 10])))) := by simp [setVar, bytes]
          _ = braceDepth 0 (parameter.1 ++ (bytes " \x7b" ++ (parameter.2 ++ [125, 10]))) :=
              braceDepth_append rfl _
          _ = none :=
              braceDepth_append_none (backslash_notMem_of_plainBytes hname.1) hd _
      rw [TclWords.Balanced, hnone] at hdepth
      cases hdepth
    · rw [TclWords.Balanced, braceDepth_setVar hd hvalue] at hdepth
      rw [TclWords.Balanced, hd, hdepth]
  · rintro ⟨hname, hdepth, hvalue⟩
    refine ⟨houter.mpr ⟨hns, braceDepth_setVar hdepth hvalue⟩, ?_⟩
    rw [setVar_eq]
    exact hinner.mpr ⟨hname, hvalue⟩

/-! ### What a request executes -/

def ScriptRun.texts (r : ScriptRun) : List Bytes := r.commands ++ r.rounds.map Prod.snd

variable (log interp sNamespace) in
/-- All commands are executed if none but the last one fails, and they come through if
none fails. -/
theorem setParameters_iff (parameters : List (Bytes × Bytes)) :
    ((setParameters log interp sNamespace parameters).1 = parameters.map setVar ↔
      ∀ parameter ∈ parameters.dropLast, Runs interp sNamespace parameter) ∧
    ((setParameters log interp sNamespace parameters).2 = .ok () ↔
      ∀ parameter ∈ parameters, Runs interp sNamespace parameter) := by
  induction parameters with
  | nil => exact ⟨iff_of_true rfl nofun, iff_of_true rfl nofun⟩
  | cons parameter parameters ih =>
    have hrun := ScriptEngine.execute_ok_iff log interp sNamespace (setVar parameter) false
    unfold setParameters
    cases hexec : ScriptEngine.execute log interp sNamespace (setVar parameter) false with
    | error e =>
      have hfail : ¬ Runs interp sNamespace parameter := by
        intro hok
        obtain ⟨output, houtput⟩ := hrun.mpr hok
        rw [hexec] at houtput
        cases houtput
      refine ⟨?_, iff_of_false (fun h => by cases h) fun h => hfail (h _ List.mem_cons_self)⟩
      cases parameters with
      | nil => exact iff_of_true rfl nofun
      | cons next parameters =>
        exact iff_of_false (fun h => by cases h) fun h => hfail (h _ List.mem_cons_self)
    | ok output =>
      have hok : Runs interp sNamespace parameter := hrun.mp ⟨output, hexec⟩
      dsimp only
      rw [List.map_cons, List.cons.injEq, ih.1, ih.2, List.forall_mem_cons]
      refine ⟨?_, by simp only [hok, true_and]⟩
      cases parameters with
      | nil => exact ⟨fun _ => nofun, fun _ => ⟨rfl, nofun⟩⟩
      | cons next parameters =>
        rw [List.dropLast_cons_cons, List.forall_mem_cons]
        simp only [hok, true_and]

/-- The loop ends, and what was executed is one assignment for each parameter and then the blocks of
the stored page, each at its place. -/
def ExecutesPageOnly (log : Log) (interp : TclInterpreter) (h : WebRequestHandler) : Prop :=
  ∃ n r, h.serverSideScripts log interp n = some r ∧
    r.texts = (cgiParameters h.cgiParams).map setVar ++
      (pageBlocks h.response).map (fun b => (scriptOf b.1).1) ∧
    r.rounds = pageRounds log interp h.sInterpreterNamespace (pageFront h.response)
      (pageBlocks h.response) ∧
    ∀ parameter ∈ cgiParameters h.cgiParams,
      ReadsAsAssignment h.sInterpreterNamespace parameter

/-- What a page with a block header executes. -/
theorem serverSideScripts_iff {h : WebRequestHandler}
    (hheader : (strstr h.response scriptHeader).isSome = true) :
    (∃ n r, h.serverSideScripts log interp n = some r ∧
      r.texts = (cgiParameters h.cgiParams).map setVar ++
        (pageBlocks h.response).map (fun b => (scriptOf b.1).1) ∧
      r.rounds = pageRounds log interp h.sInterpreterNamespace (pageFront h.response)
        (pageBlocks h.response)) ↔
      CommandsRun interp h.sInterpreterNamespace (cgiParameters h.cgiParams)
        (pageBlocks h.response) ∧
      OutputsInert log interp h.sInterpreterNamespace (pageFront h.response)
        (pageBlocks h.response) := by
  obtain ⟨hpage, hclosed⟩ := pageBlocks_spec h.response
  have hloop := scriptRounds_iff log interp h.sInterpreterNamespace hclosed (pageFront h.response)
  rw [hpage] at hloop
  obtain ⟨hall, hok⟩ := setParameters_iff log interp h.sInterpreterNamespace
    (cgiParameters h.cgiParams)
  have hscripts := pageRounds_scripts log interp h.sInterpreterNamespace (pageFront h.response)
    (pageBlocks h.response)
  unfold CommandsRun
  rw [← hall, ← hok]
  cases hset : setParameters log interp h.sInterpreterNamespace (cgiParameters h.cgiParams) with
  | mk commands result =>
    cases result with
    | error e =>
      -- no block is executed any more
      have hrun (n : ℕ) : h.serverSideScripts log interp n = some ⟨commands, [], .error e⟩ := by
        rw [WebRequestHandler.serverSideScripts, if_pos hheader]
        dsimp only
        rw [hset]
      constructor
      · rintro ⟨n, r, hr, htexts, hrounds⟩
        obtain rfl := Option.some.inj ((hrun n).symm.trans hr)
        have hnone : pageBlocks h.response = [] := by
          rw [← hrounds] at hscripts
          exact List.map_eq_nil_iff.mp hscripts.symm
        have hfront : pageFront h.response = h.response := by
          rw [hnone] at hpage
          simpa [joinPage] using hpage
        rw [hnone, hfront, OutputsInert]
        refine ⟨⟨?_, fun hne => absurd rfl hne⟩, nextBlock_of_pageBlocks hnone⟩
        rw [hnone, List.map_nil, List.append_nil] at htexts
        simpa [ScriptRun.texts] using htexts
      · rintro ⟨⟨hcommands, hblocks⟩, -⟩
        have hnone : pageBlocks h.response = [] := by
          by_contra hne
          cases hblocks hne
        refine ⟨0, _, hrun 0, ?_, ?_⟩
        · rw [hnone]
          exact congrArg (· ++ []) hcommands
        · rw [hnone]
          rfl
    | ok _ =>
      have hcommands : commands = (cgiParameters h.cgiParams).map setVar := by
        have hruns := hok.mp (by rw [hset])
        have hmost := hall.mpr fun p hp => hruns p (List.mem_of_mem_dropLast hp)
        rw [hset] at hmost
        exact hmost
      have hrun (n : ℕ) : h.serverSideScripts log interp n =
          (scriptRounds log interp h.sInterpreterNamespace n h.response).map fun (rounds, result) =>
            ⟨commands, rounds, do
              let response ← result
              pure { h with cgi := (cgiParameters h.cgiParams).map Prod.fst, response }⟩ := by
        rw [WebRequestHandler.serverSideScripts, if_pos hheader]
        dsimp only
        rw [hset]
      rw [← hloop]
      constructor
      · rintro ⟨n, r, hr, -, hrounds⟩
        rw [hrun] at hr
        obtain ⟨⟨rounds, result⟩, hfound, rfl⟩ := Option.map_eq_some_iff.mp hr
        obtain rfl : rounds = _ := hrounds
        exact ⟨⟨hcommands, fun _ => rfl⟩, n, result, hfound⟩
      · rintro ⟨-, n, result, hfound⟩
        refine ⟨n, _, (hrun n).trans (by rw [hfound]; rfl), ?_, rfl⟩
        rw [ScriptRun.texts, hcommands]
        exact congrArg (_ ++ ·) hscripts

theorem executesPageOnly_iff {h : WebRequestHandler} (hns : PlainWord h.sInterpreterNamespace) :
    ExecutesPageOnly log interp h ↔
      ((strstr h.response scriptHeader).isSome ∨ cgiParameters h.cgiParams = []) ∧
        (∀ parameter ∈ cgiParameters h.cgiParams, SafeParameter parameter) ∧
        CommandsRun interp h.sInterpreterNamespace (cgiParameters h.cgiParams)
          (pageBlocks h.response) ∧
        OutputsInert log interp h.sInterpreterNamespace (pageFront h.response)
          (pageBlocks h.response) := by
  have hsafe : (∀ parameter ∈ cgiParameters h.cgiParams,
      ReadsAsAssignment h.sInterpreterNamespace parameter) ↔
      ∀ parameter ∈ cgiParameters h.cgiParams, SafeParameter parameter :=
    forall₂_congr fun parameter _ => readsAsAssignment_iff hns parameter
  rw [ExecutesPageOnly, hsafe]
  by_cases hheader : (strstr h.response scriptHeader).isSome = true
  · rw [← serverSideScripts_iff hheader]
    constructor
    · rintro ⟨n, r, hr, htexts, hrounds, hparams⟩
      exact ⟨Or.inl hheader, hparams, n, r, hr, htexts, hrounds⟩
    · rintro ⟨-, hparams, n, r, hr, htexts, hrounds⟩
      exact ⟨n, r, hr, htexts, hrounds, hparams⟩
  · -- without a header nothing is executed, neither are the parameters set
    have hnext : nextBlock h.response = none := by
      have hnone : strstr h.response scriptHeader = none := by simpa using hheader
      rw [nextBlock, hnone]
      rfl
    have hrun (n : ℕ) : h.serverSideScripts log interp n = some ⟨[], [], pure h⟩ := by
      rw [WebRequestHandler.serverSideScripts, if_neg hheader]
    obtain ⟨hpage, hclosed⟩ := pageBlocks_spec h.response
    have hloop := scriptRounds_iff log interp h.sInterpreterNamespace hclosed (pageFront h.response)
    have hscripts := pageRounds_scripts log interp h.sInterpreterNamespace (pageFront h.response)
      (pageBlocks h.response)
    rw [hpage] at hloop
    constructor
    · rintro ⟨n, r, hr, htexts, hrounds, hparams⟩
      obtain rfl := Option.some.inj ((hrun n).symm.trans hr)
      obtain ⟨hnone, hblocks⟩ := List.append_eq_nil_iff.mp htexts.symm
      have hnone := List.map_eq_nil_iff.mp hnone
      have hblocks := List.map_eq_nil_iff.mp hblocks
      refine ⟨Or.inr hnone, hparams, ?_, ?_⟩
      · rw [hnone]
        exact ⟨nofun, fun _ => nofun⟩
      · rw [← hloop]
        refine ⟨1, .ok h.response, ?_⟩
        rw [scriptRounds, hnext, ← hrounds]
        rfl
    · rintro ⟨hnone, hparams, -, hinert⟩
      have hparams₀ := hnone.resolve_left hheader
      obtain ⟨n, result, hfound⟩ := hloop.mpr hinert
      have hrounds : pageRounds log interp h.sInterpreterNamespace (pageFront h.response)
          (pageBlocks h.response) = [] := by
        cases n with
        | zero => cases hfound
        | succ n =>
          rw [scriptRounds, hnext] at hfound
          exact (Prod.mk.inj (Option.some.inj hfound)).1.symm
      refine ⟨0, _, hrun 0, ?_, hrounds.symm, hparams⟩
      rw [← hscripts, hrounds, hparams₀]
      rfl

/-- A page asked for with the parameters `params`. -/
def scriptRequest (page params : String) : WebRequestHandler :=
  { response := bytes page, cgiParams := bytes params, sInterpreterNamespace := bytes "aa-01" }

/-- An interpreter that greets, and knows no command "fail". -/
def greeting : TclInterpreter := fun script =>
  if occursIn (bytes "fail") script then .error (bytes "invalid command name") else .ok (bytes "hello")

/-- Two blocks, the second of which fails, and two parameters. -/
def greetingPage : WebRequestHandler := scriptRequest "<?mc puts $a ?> and <?mc fail ?>" "a=1&b={x}"

end MsgCourier
