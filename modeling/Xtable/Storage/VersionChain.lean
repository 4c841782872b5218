import Xtable.Core

/-! Each object key has a chain of version entries in ascending order of commit version. A read at a snapshot walks
    it from the newest entry to the oldest; garbage collection drops a front part. -/

namespace Xtable

structure VersionEntry where
  commitVersion : Nat
  etag : String
  backendKey : String
  txnId : String
  size : Nat
  deleted : Bool
  deriving DecidableEq, Repr

/-- A live version. -/
def VersionEntry.new (commitVersion : Nat) (etag backendKey txnId : String) (size : Nat) : VersionEntry :=
  ⟨commitVersion, etag, backendKey, txnId, size, false⟩

/-- A delete marker. -/
def VersionEntry.tombstone (commitVersion : Nat) (backendKey txnId : String) : VersionEntry :=
  ⟨commitVersion, "", backendKey, txnId, 0, true⟩

structure VersionChain where
  key : String
  entries : List VersionEntry
  deriving DecidableEq, Repr

/-- The position of the last element satisfying `p` (`Iterator::rposition`). -/
def rposition {α : Type} (p : α → Bool) : List α → Option Nat
  | [] => none
  | x :: xs =>
    match rposition p xs with
    | some i => some (i + 1)
    | none => if p x then some 0 else none

namespace VersionChain

def new (key : String) : VersionChain := ⟨key, []⟩

/-- The newest entry at or below the snapshot, walking from the newest. -/
def readAtSnapshot (c : VersionChain) (snapshot : Nat) : Option VersionEntry :=
  c.entries.reverse.find? fun e => e.commitVersion ≤ snapshot

/-- The newest commit version, 0 for an empty chain. -/
def latestCommitVersion (c : VersionChain) : Nat :=
  (c.entries.getLast?.map (·.commitVersion)).getD 0

def append (c : VersionChain) (e : VersionEntry) : VersionChain :=
  { c with entries := c.entries ++ [e] }

/-- How many entries at the front `prune_below` drops: everything before the newest entry visible
at the oldest active snapshot, or before the newest entry when no snapshot is active. -/
def keepFrom (c : VersionChain) (minSnapshot : WithTop Nat) : Nat :=
  if c.entries.length ≤ 1 then 0
  else if minSnapshot = ⊤ then c.entries.length - 1
  else (rposition (fun e => decide ((e.commitVersion : WithTop Nat) ≤ minSnapshot)) c.entries).getD 0

/-- Drop what no active snapshot can see; also how many entries were dropped. -/
def pruneBelow (c : VersionChain) (minSnapshot : WithTop Nat) : VersionChain × Nat :=
  ({ c with entries := c.entries.drop (c.keepFrom minSnapshot) }, c.keepFrom minSnapshot)

end VersionChain

/-! ## Facts -/

theorem rposition_ne_none {α : Type} {p : α → Bool} {l : List α} {y : α} (hy : y ∈ l) (hpy : p y = true) :
    rposition p l ≠ none := by
  induction l with
  | nil => cases hy
  | cons x xs ih =>
    rw [rposition]
    rcases List.mem_cons.1 hy with rfl | hy
    · cases rposition p xs <;> simp [hpy]
    · cases h : rposition p xs with
      | none => exact absurd h (ih hy)
      | some i => simp

theorem rposition_some {α : Type} {p : α → Bool} {l : List α} {i : Nat} (h : rposition p l = some i) :
    ∃ front x back, l = front ++ x :: back ∧ front.length = i ∧ p x = true ∧ ∀ y ∈ back, p y = false := by
  induction l generalizing i with
  | nil => cases h
  | cons x xs ih =>
    rw [rposition] at h
    cases hxs : rposition p xs with
    | some j =>
      simp only [hxs, Option.some.injEq] at h
      obtain ⟨front, y, back, rfl, hlen, hy, hback⟩ := ih hxs
      exact ⟨x :: front, y, back, rfl, by simp [hlen, h], hy, hback⟩
    | none =>
      simp only [hxs] at h
      split at h
      case isTrue hx =>
        cases h
        refine ⟨[], x, xs, rfl, rfl, hx, fun y hy => ?_⟩
        by_contra hpy
        exact absurd hxs (rposition_ne_none hy (by simpa using hpy))
      case isFalse => cases h

namespace VersionChain

theorem keepFrom_le (c : VersionChain) (m : WithTop Nat) : c.keepFrom m ≤ c.entries.length - 1 := by
  unfold keepFrom
  split
  · omega
  · split
    · exact le_rfl
    · cases h : rposition (fun e => decide ((e.commitVersion : WithTop Nat) ≤ m)) c.entries with
      | none => simp
      | some i =>
        obtain ⟨front, x, back, hl, hlen, -, -⟩ := rposition_some h
        rw [hl]
        simp [hlen]

theorem pruneBelow_getLast? (c : VersionChain) (m : WithTop Nat) :
    (c.pruneBelow m).1.entries.getLast? = c.entries.getLast? := by
  have hle := c.keepFrom_le m
  simp only [pruneBelow, List.getLast?_drop]
  split
  · rw [List.getLast?_eq_none_iff.2]
    exact List.length_eq_zero_iff.1 (by omega)
  · rfl

theorem pruneBelow_suffix (c : VersionChain) (m : WithTop Nat) :
    (c.pruneBelow m).1.entries <:+ c.entries :=
  List.drop_suffix _ _

end VersionChain

end Xtable
