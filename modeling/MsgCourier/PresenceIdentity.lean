import MsgCourier.Presence
import Mathlib.Data.Int.ModEq
import Mathlib.Tactic.Ring

/-! Which nodes share an entry of the presence map: the key is a 32-bit number computed from the
address, the name and the MAC address, written one behind the other. -/
namespace MsgCourier
open ListSearch CText

/-! ### The calls -/

namespace NodeUpdate

variable (u : NodeUpdate)

/-- The node that the call is about. -/
def triple : Bytes × Bytes × Bytes := (cstr u.ipAddress, cstr u.machineName, cstr u.macAddress)

end NodeUpdate

namespace NodeEntry

def triple (n : NodeEntry) : Bytes × Bytes × Bytes := (n.ipAddress, n.machineName, n.macAddress)

end NodeEntry

namespace Presence

/-- The keys that the calls return, and the map behind them. -/
def updates (log : Log) : Presence → List NodeUpdate → Cxx (List Bytes × Presence)
  | p, [] => pure ([], p)
  | p, u :: us => do
    let (key, p) ← p.updateNode log u
    let (keys, p) ← updates log p us
    pure (key :: keys, p)

/-- The calls of a node. -/
def callsOf (us : List NodeUpdate) (u : NodeUpdate) : List NodeUpdate :=
  us.filter fun v => v.triple = u.triple

/-- Calls share an entry exactly when they are about the same node, and the entry is that node's:
its address, name and MAC address, the status of its last call, and what its first call put in. -/
structure Apart (us : List NodeUpdate) (keys : List Bytes) (after : Presence) : Prop where
  same : ∀ x ∈ us.zip keys, ∀ y ∈ us.zip keys, x.2 = y.2 ↔ x.1.triple = y.1.triple
  own : ∀ x ∈ us.zip keys, ∃ n, after x.2 = some n ∧ n.triple = x.1.triple ∧
    (callsOf us x.1).getLast?.map NodeUpdate.status = some n.status ∧
    (callsOf us x.1).head?.map (fun u => (cstr u.services, u.garbage)) =
      some (n.services, n.tcpSocketHandle)

/-- All the calls return, and they keep the nodes apart. -/
def Identifies (log : Log) (us : List NodeUpdate) : Prop :=
  ∃ keys after, updates log (fun _ => none) us = .ok (keys, after) ∧ Apart us keys after

/-- The log takes the line about each node that is new, which is the first with its key. -/
def Logged (log : Log) (us : List NodeUpdate) : Prop :=
  ∀ before u behind, us = before ++ u :: behind → (∀ v ∈ before, v.key ≠ u.key) →
    log.Takes u.logLine

/-! ### The map after any calls -/

/-- The map as calls that return leave it. -/
def after (us : List NodeUpdate) : Presence := us.foldl updated fun _ => none

theorem updates_eq_ok_iff (log : Log) (p : Presence) (us : List NodeUpdate)
    {r : List Bytes × Presence} : p.updates log us = .ok r ↔
      (∀ before u behind, us = before ++ u :: behind → before.foldl updated p u.key = none →
        log.Takes u.logLine) ∧ r = (us.map NodeUpdate.key, us.foldl updated p) := by
  induction us generalizing p r with
  | nil =>
    rw [updates, pure_eq_ok, Except.ok.injEq]
    refine ⟨fun h => ⟨fun before u behind hnil => ?_, h.symm⟩, fun h => h.2.symm⟩
    cases before <;> cases hnil
  | cons u us ih =>
    rw [updates, bind_eq_ok]
    constructor
    · rintro ⟨⟨key, q⟩, hcall, hrest⟩
      obtain ⟨hline, hq⟩ := (p.updateNode_eq_ok_iff log u).mp hcall
      obtain ⟨rfl, rfl⟩ := Prod.mk.inj hq
      obtain ⟨⟨keys, q⟩, hmore, hret⟩ := bind_eq_ok.mp hrest
      obtain ⟨hlines, hq⟩ := ih _ |>.mp hmore
      obtain ⟨rfl, rfl⟩ := Prod.mk.inj hq
      refine ⟨fun before v behind hsplit hnone => ?_, (Except.ok.inj hret).symm⟩
      cases before with
      | nil =>
        obtain ⟨rfl, -⟩ := List.cons.inj hsplit
        exact hline hnone
      | cons w before =>
        obtain ⟨rfl, -⟩ := List.cons.inj hsplit
        exact hlines before v behind (List.cons.inj hsplit).2 hnone
    · rintro ⟨hlines, rfl⟩
      have hcall := (p.updateNode_eq_ok_iff log u (r := (u.key, p.updated u))).mpr
        ⟨fun hnone => hlines [] u us rfl hnone, rfl⟩
      have hmore := (ih (p.updated u)
        (r := (us.map NodeUpdate.key, us.foldl updated (p.updated u)))).mpr
        ⟨fun before v behind hsplit => hlines (u :: before) v behind (by rw [hsplit]; rfl), rfl⟩
      refine ⟨_, hcall, ?_⟩
      dsimp only
      rw [hmore]
      rfl

theorem mem_zip_keys {us : List NodeUpdate} {x : NodeUpdate × Bytes} :
    x ∈ us.zip (us.map NodeUpdate.key) ↔ x.1 ∈ us ∧ x.2 = x.1.key := by
  have hzip : us.zip (us.map NodeUpdate.key) = us.map fun u => (u, u.key) := by
    induction us with
    | nil => rfl
    | cons u us ih => rw [List.map_cons, List.zip_cons_cons, ih, List.map_cons]
  rw [hzip, List.mem_map]
  constructor
  · rintro ⟨u, hu, rfl⟩
    exact ⟨hu, rfl⟩
  · rintro ⟨hu, hk⟩
    exact ⟨x.1, hu, Prod.ext rfl hk.symm⟩

/-- The calls that returned a key. -/
def callsAt (us : List NodeUpdate) (k : Bytes) : List NodeUpdate := us.filter fun v => v.key = k

/-- An entry is the one that the first call with its key made, with the status of the last one. -/
theorem after_eq (us : List NodeUpdate) (k : Bytes) :
    after us k = (callsAt us k).head?.map fun u =>
      { u.newEntry with status := ((callsAt us k).getLast?.getD u).status } := by
  induction us using List.reverseRecOn with
  | nil => rfl
  | append_singleton us u ih =>
    have hafter : after (us ++ [u]) = (after us).updated u := by
      unfold after
      rw [List.foldl_append]
      rfl
    have hcalls : callsAt (us ++ [u]) k =
        callsAt us k ++ if u.key = k then [u] else [] := by
      unfold callsAt
      rw [List.filter_append]
      congr 1
      split_ifs with hk
      · exact List.filter_cons_of_pos (decide_eq_true hk)
      · exact List.filter_cons_of_neg (by simpa using hk)
    rw [hafter, hcalls]
    unfold updated
    by_cases hk : u.key = k
    · subst hk
      rw [Function.update_self, ih, if_pos rfl]
      cases callsAt us u.key with
      | nil => rfl
      | cons v vs =>
        rw [List.cons_append, List.head?_cons, List.head?_cons, ← List.cons_append,
          List.getLast?_concat]
        rfl
    · rw [Function.update_of_ne (fun he => hk he.symm), ih, if_neg hk, List.append_nil]

end Presence

/-! ### The key -/

def hexDigit (n : ℕ) : Byte := UInt8.ofNat (Nat.digitChar n).toUpper.toNat

theorem formatHex_eq (n : ℕ) :
    formatHex n = (if n < 16 then [] else formatHex (n/16)) ++ [hexDigit (n%16)] := by
  unfold formatHex
  rw [Nat.toDigits_eq_if (by decide)]
  split_ifs with hn
  · rw [Nat.mod_eq_of_lt hn]
    rfl
  · rw [List.map_append]
    rfl

theorem formatHex_ne_nil (n : ℕ) : formatHex n ≠ [] := by
  rw [formatHex_eq]
  exact List.append_ne_nil_of_right_ne_nil _ (List.cons_ne_nil _ _)

theorem hexDigit_injective : ∀ m < 16, ∀ n < 16, hexDigit m = hexDigit n → m = n := by decide

theorem formatHex_injective : Function.Injective formatHex := by
  intro m
  induction m using Nat.strong_induction_on with
  | _ m ih =>
    intro n heq
    rw [formatHex_eq m, formatHex_eq n] at heq
    obtain ⟨hinit, hlast⟩ := List.append_inj' heq rfl
    have hdigit := hexDigit_injective (m%16) (Nat.mod_lt m (by decide)) (n%16)
      (Nat.mod_lt n (by decide)) (List.singleton_inj.mp hlast)
    -- the digits in front of the last one are equal as well
    have hrest : m/16 = n/16 := by
      by_cases hm : m < 16
      · by_cases hn : n < 16
        · omega
        · rw [if_pos hm, if_neg hn] at hinit
          exact absurd hinit.symm (formatHex_ne_nil _)
      · by_cases hn : n < 16
        · rw [if_neg hm, if_pos hn] at hinit
          exact absurd hinit (formatHex_ne_nil _)
        · rw [if_neg hm, if_neg hn] at hinit
          exact ih (m/16) (by omega) hinit
    omega

/-- The bytes as the digits, some of them negative, of a number to the base 33. -/
def base33 (s : Bytes) : ℤ := s.foldl (fun v b => 33*v+b.toInt8.toInt) 0

theorem toUInt32_modEq (x : Int32) : (x.toUInt32.toNat : ℤ) ≡ x.toInt [ZMOD 4294967296] := by
  have hint : x.toInt = (x.toUInt32.toNat : ℤ).bmod 4294967296 := BitVec.toInt_eq_toNat_bmod _
  rw [hint]
  exact (Int.bmod_emod (m := 4294967296)).symm

theorem hash_step (h x : UInt32) :
    (((h <<< 5)+h+x).toNat : ℤ) ≡ 33*(h.toNat : ℤ)+x.toNat [ZMOD 4294967296] := by
  have hshift : (h <<< 5).toNat = h.toNat*32%4294967296 := by
    rw [UInt32.toNat_shiftLeft, Nat.shiftLeft_eq]
    rfl
  unfold Int.ModEq
  rw [UInt32.toNat_add, UInt32.toNat_add, hshift]
  omega

/-- The hash is that number modulo 2^32. -/
theorem hashKey_modEq (s : Bytes) : ((hashKey s).toNat : ℤ) ≡ base33 s [ZMOD 4294967296] := by
  unfold hashKey base33
  induction s using List.reverseRecOn with
  | nil => rfl
  | append_singleton s b ih =>
    rw [List.foldl_append, List.foldl_append]
    have hbyte : (b.toInt8.toInt32.toUInt32.toNat : ℤ) ≡ b.toInt8.toInt [ZMOD 4294967296] := by
      have hword := toUInt32_modEq b.toInt8.toInt32
      rwa [Int8.toInt_toInt32] at hword
    exact (hash_step _ _).trans ((ih.mul_left 33).add hbyte)

theorem hashKey_eq_iff (s t : Bytes) :
    hashKey s = hashKey t ↔ base33 s ≡ base33 t [ZMOD 4294967296] := by
  constructor
  · intro heq
    exact (hashKey_modEq s).symm.trans (heq ▸ hashKey_modEq t)
  · intro hmod
    have hnat := ((hashKey_modEq s).trans hmod).trans (hashKey_modEq t).symm
    apply UInt32.toNat_inj.mp
    have hs := (hashKey s).toNat_lt
    have ht := (hashKey t).toNat_lt
    unfold Int.ModEq at hnat
    omega

namespace NodeUpdate

variable (u v : NodeUpdate)

/-- The text that is hashed: the parts of the triple without anything between them. -/
def joined : Bytes := u.triple.1 ++ u.triple.2.1 ++ u.triple.2.2

theorem key_eq_iff : u.key = v.key ↔ base33 u.joined ≡ base33 v.joined [ZMOD 4294967296] := by
  rw [← hashKey_eq_iff]
  constructor
  · intro hkey
    exact UInt32.toNat_inj.mp (formatHex_injective hkey)
  · intro hhash
    exact congrArg (fun h : UInt32 => formatHex h.toNat) hhash

end NodeUpdate

namespace Presence

/-- A key has no entry before the first call with it. -/
theorem logged_iff (log : Log) (us : List NodeUpdate) :
    (∀ before u behind, us = before ++ u :: behind → after before u.key = none →
      log.Takes u.logLine) ↔ Logged log us := by
  have hnone (before : List NodeUpdate) (k : Bytes) :
      after before k = none ↔ ∀ v ∈ before, v.key ≠ k := by
    rw [after_eq, Option.map_eq_none_iff, List.head?_eq_none_iff]
    unfold callsAt
    rw [List.filter_eq_nil_iff]
    simp only [decide_eq_true_eq]
  unfold Logged
  simp only [hnone]

/-- Calls that return keep the nodes apart exactly if no two different nodes have joined texts that
agree, as numbers to the base 33, modulo 2^32. -/
theorem apart_iff (us : List NodeUpdate) : Apart us (us.map NodeUpdate.key) (after us) ↔
    ∀ u ∈ us, ∀ v ∈ us,
      base33 u.joined ≡ base33 v.joined [ZMOD 4294967296] → u.triple = v.triple := by
  constructor
  · intro hid u hu v hv hmod
    have hx : (u, u.key) ∈ us.zip (us.map NodeUpdate.key) := mem_zip_keys.mpr ⟨hu, rfl⟩
    have hy : (v, v.key) ∈ us.zip (us.map NodeUpdate.key) := mem_zip_keys.mpr ⟨hv, rfl⟩
    exact (hid.same _ hx _ hy).mp ((u.key_eq_iff v).mpr hmod)
  · intro hapart
    have hsame {u v : NodeUpdate} (hu : u ∈ us) (hv : v ∈ us) :
        u.key = v.key ↔ u.triple = v.triple := by
      rw [NodeUpdate.key_eq_iff]
      refine ⟨hapart u hu v hv, fun htriple => ?_⟩
      unfold NodeUpdate.joined
      rw [htriple]
    refine ⟨?_, ?_⟩
    · intro x hx y hy
      obtain ⟨hxin, hxkey⟩ := mem_zip_keys.mp hx
      obtain ⟨hyin, hykey⟩ := mem_zip_keys.mp hy
      rw [hxkey, hykey]
      exact hsame hxin hyin
    · intro x hx
      obtain ⟨hin, hkey⟩ := mem_zip_keys.mp hx
      -- the calls with the key are those of the node
      have hcalls : callsAt us x.2 = callsOf us x.1 := by
        apply List.filter_congr
        intro v hv
        rw [hkey]
        exact decide_eq_decide.mpr (hsame hv hin)
      have hafter := after_eq us x.2
      rw [hcalls] at hafter
      cases hmine : callsOf us x.1 with
      | nil =>
        have hmem : x.1 ∈ callsOf us x.1 := List.mem_filter.mpr ⟨hin, decide_eq_true rfl⟩
        rw [hmine] at hmem
        exact absurd hmem List.not_mem_nil
      | cons v vs =>
        have hv : v ∈ callsOf us x.1 := by
          rw [hmine]
          exact List.mem_cons_self
        have htriple := of_decide_eq_true (List.mem_filter.mp hv).2
        rw [hmine, List.head?_cons, Option.map_some] at hafter
        refine ⟨_, hafter, htriple, ?_, rfl⟩
        rw [List.getLast?_cons]
        rfl

/-- Nodes have their own entries exactly in those runs in which the log takes the lines about the
new nodes and no two different nodes have joined texts that agree, as numbers to the base 33, modulo
2^32. -/
theorem identifies_iff (log : Log) (us : List NodeUpdate) : Identifies log us ↔
    Logged log us ∧ ∀ u ∈ us, ∀ v ∈ us,
      base33 u.joined ≡ base33 v.joined [ZMOD 4294967296] → u.triple = v.triple := by
  rw [← logged_iff, ← apart_iff]
  constructor
  · rintro ⟨keys, p, hrun, hapart⟩
    obtain ⟨hlines, hr⟩ := (updates_eq_ok_iff log _ us).mp hrun
    obtain ⟨rfl, rfl⟩ := Prod.mk.inj hr
    exact ⟨hlines, hapart⟩
  · rintro ⟨hlines, hapart⟩
    exact ⟨_, _, (updates_eq_ok_iff log _ us).mpr ⟨hlines, rfl⟩, hapart⟩

/-- The machine "1a" at 10.0.0.1, and the machine "a" at 10.0.0.11. -/
def nearNode : NodeUpdate := ⟨bytes "10.0.0.1", bytes "1a", bytes "00-0C", [], .active, 0⟩
def farNode : NodeUpdate := ⟨bytes "10.0.0.11", bytes "a", bytes "00-0C", [], .away, 0⟩

/-- Their joined texts are one text, so both have one entry. -/
theorem nearNode_farNode_share : ¬ Identifies {} [nearNode, farNode] := by
  rintro ⟨keys, p, hrun, hapart⟩
  obtain ⟨-, hr⟩ := (updates_eq_ok_iff {} _ _).mp hrun
  obtain ⟨rfl, rfl⟩ := Prod.mk.inj hr
  have htriple := (apart_iff _).mp hapart nearNode List.mem_cons_self farNode
    (List.mem_cons_of_mem _ List.mem_cons_self) rfl
  revert htriple
  decide

end Presence
end MsgCourier
