import Xtable.Theorems.Alone

/-! A commit puts each of its writes into the active memtable and publishes its key in every memtable; an entry held
    afterwards is one of the commit's, or was there before. -/

namespace Xtable

open Coordinator

variable {ws : List (String × WriteSetEntry)} {bodies : Table String Bytes} {aged : String → Bool}

def MemTableSet.Holds (m : MemTableSet) (rk : RecordKey) (e : MemEntry) : Prop :=
  ∃ mt ∈ m.active :: m.flushing, mt.map[rk]? = some e

/-- The memtable with the id has the entry under the key. -/
def MemTableSet.At (m : MemTableSet) (id : Nat) (rk : RecordKey) (e : MemEntry) : Prop :=
  ∃ mt ∈ m.active :: m.flushing, mt.id = id ∧ mt.map[rk]? = some e

namespace MemTableSet

variable {m : MemTableSet} {rk key : RecordKey} {e e₀ : MemEntry} {id v : Nat}

theorem holds_iff : m.Holds rk e ↔ ∃ id, m.At id rk e := by
  constructor
  · rintro ⟨mt, hmt, hget⟩
    exact ⟨mt.id, mt, hmt, rfl, hget⟩
  · rintro ⟨id, mt, hmt, -, hget⟩
    exact ⟨mt, hmt, hget⟩

theorem At.of_rotate (h : m.rotate.At id rk e) : m.At id rk e := by
  obtain ⟨mt, hmt, hid, hget⟩ := h
  rcases List.mem_cons.1 hmt with rfl | hmt
  · simp [rotate] at hget
  · rcases List.mem_append.1 hmt with hmt | hmt
    · exact ⟨mt, List.mem_cons_of_mem _ hmt, hid, hget⟩
    · exact ⟨mt, List.mem_singleton.1 hmt ▸ List.mem_cons_self, hid, hget⟩

theorem At.of_putInvisible {aged : Bool} (h : (m.putInvisible e₀ aged).At id rk e) :
    (e₀.key = rk ∧ e = e₀) ∨ (m.At id rk e ∧ (e₀.key = rk → ∃ mt ∈ m.flushing, mt.map[rk]? = some e)) := by
  have hput : ({ m with active := m.active.putInvisible e₀ } : MemTableSet).At id rk e := by
    unfold putInvisible at h
    simp only at h
    split at h
    · exact h.of_rotate
    · exact h
  obtain ⟨mt, hmt, hid, hget⟩ := hput
  rcases List.mem_cons.1 hmt with rfl | hmt
  · simp only [MemTable.putInvisible, Table.get_insert] at hget
    split at hget
    case isTrue hkey => exact .inl ⟨hkey, (Option.some.inj hget).symm⟩
    case isFalse hkey => exact .inr ⟨⟨m.active, List.mem_cons_self, hid, hget⟩, fun h => absurd h hkey⟩
  · exact .inr ⟨⟨mt, List.mem_cons_of_mem _ hmt, hid, hget⟩, fun _ => ⟨mt, hmt, hget⟩⟩

theorem Holds.of_putInvisible {aged : Bool} (h : (m.putInvisible e₀ aged).Holds rk e) :
    (e₀.key = rk ∧ e = e₀) ∨ m.Holds rk e := by
  obtain ⟨id, h⟩ := holds_iff.1 h
  rcases h.of_putInvisible with hnew | ⟨hold, -⟩
  · exact .inl hnew
  · exact .inr (holds_iff.2 ⟨id, hold⟩)

theorem get_publish (mt : MemTable) (key rk : RecordKey) (v : WithTop Nat) : (mt.publish key v).map[rk]? =
    if key = rk then mt.map[rk]?.map fun e => { e with commitVersion := v } else mt.map[rk]? := by
  unfold MemTable.publish
  cases hget : mt.map[key]? with
  | none =>
    by_cases hkey : key = rk
    · subst hkey
      simp [hget]
    · simp [hkey]
  | some e =>
    by_cases hkey : key = rk
    · subst hkey
      simp [hget]
    · simp [hkey]

theorem id_publish (mt : MemTable) (key : RecordKey) (v : Nat) : (mt.publish key v).id = mt.id := by
  unfold MemTable.publish
  split <;> rfl

theorem At.of_publish (h : (m.publish key v).At id rk e) :
    ∃ e', m.At id rk e' ∧ e = if key = rk then { e' with commitVersion := (v : WithTop Nat) } else e' := by
  obtain ⟨mt, hmt, hid, hget⟩ := h
  have hold : ∃ mt' ∈ m.active :: m.flushing, mt = mt'.publish key v := by
    rcases List.mem_cons.1 hmt with rfl | hmt
    · exact ⟨m.active, by simp, rfl⟩
    · obtain ⟨mt', hmt', rfl⟩ := List.mem_map.1 hmt
      exact ⟨mt', by simp [hmt'], rfl⟩
  obtain ⟨mt', hmt', rfl⟩ := hold
  rw [id_publish] at hid
  rw [get_publish] at hget
  split at hget
  case isTrue hkey =>
    obtain ⟨e', he', rfl⟩ := Option.map_eq_some_iff.1 hget
    exact ⟨e', ⟨mt', hmt', hid, he'⟩, (if_pos hkey).symm⟩
  case isFalse hkey => exact ⟨e, ⟨mt', hmt', hid, hget⟩, (if_neg hkey).symm⟩

theorem Holds.of_publish (h : (m.publish key v).Holds rk e) :
    ∃ e', m.Holds rk e' ∧ e = if key = rk then { e' with commitVersion := (v : WithTop Nat) } else e' := by
  obtain ⟨id, h⟩ := holds_iff.1 h
  obtain ⟨e', he', heq⟩ := h.of_publish
  exact ⟨e', holds_iff.2 ⟨id, he'⟩, heq⟩

theorem Holds.of_published {t : String} (h : (m.published t v bodies aged ws).Holds rk e) :
    (∃ x ∈ ws, memKey x.1 = rk ∧ e = memEntry t v bodies x.1 x.2) ∨
      ∃ e', m.Holds rk e' ∧
        (((∀ x ∈ ws, memKey x.1 ≠ rk) ∧ e = e') ∨
          ((∃ x ∈ ws, memKey x.1 = rk) ∧ e = { e' with commitVersion := (v : WithTop Nat) })) := by
  induction ws generalizing m with
  | nil => exact .inr ⟨e, h, .inl ⟨by simp, rfl⟩⟩
  | cons x rest ih =>
    rcases ih h with ⟨y, hy, hkey, rfl⟩ | ⟨e₁, h₁, hrest⟩
    · exact .inl ⟨y, by simp [hy], hkey, rfl⟩
    · obtain ⟨e₂, h₂, rfl⟩ := h₁.of_publish
      rcases h₂.of_putInvisible with ⟨hkey, rfl⟩ | h₂
      · -- an entry of the commit has its version already
        refine .inl ⟨x, by simp, hkey, ?_⟩
        have hkey' : memKey x.1 = rk := hkey
        rcases hrest with ⟨-, rfl⟩ | ⟨-, rfl⟩ <;> rw [if_pos hkey'] <;> rfl
      · refine .inr ⟨e₂, h₂, ?_⟩
        by_cases hkey : memKey x.1 = rk
        · rw [if_pos hkey] at hrest
          refine .inr ⟨⟨x, by simp, hkey⟩, ?_⟩
          rcases hrest with ⟨-, rfl⟩ | ⟨-, rfl⟩ <;> rfl
        · rw [if_neg hkey] at hrest
          rcases hrest with ⟨hnone, rfl⟩ | ⟨⟨y, hy, hy'⟩, rfl⟩
          · refine .inl ⟨fun y hy => ?_, rfl⟩
            rcases List.mem_cons.1 hy with rfl | hy
            · exact hkey
            · exact hnone y hy
          · exact .inr ⟨⟨y, by simp [hy], hy'⟩, rfl⟩

theorem Holds.putInvisible {aged : Bool} (h : m.Holds rk e) (hne : e₀.key ≠ rk) : (m.putInvisible e₀ aged).Holds rk e := by
  obtain ⟨mt, hmt, hget⟩ := h
  have hput : ∃ mt' ∈ m.active.putInvisible e₀ :: m.flushing, mt'.map[rk]? = some e := by
    rcases List.mem_cons.1 hmt with rfl | hmt
    · refine ⟨m.active.putInvisible e₀, List.mem_cons_self, ?_⟩
      simp only [MemTable.putInvisible, Table.get_insert, if_neg hne, hget]
    · exact ⟨mt, List.mem_cons_of_mem _ hmt, hget⟩
  obtain ⟨mt', hmt', hget'⟩ := hput
  refine ⟨mt', ?_, hget'⟩
  unfold MemTableSet.putInvisible
  simp only
  split
  · refine List.mem_cons_of_mem _ ?_
    simpa [rotate, or_comm] using hmt'
  · exact hmt'

theorem Holds.publish (h : m.Holds rk e) (hne : key ≠ rk) : (m.publish key v).Holds rk e := by
  obtain ⟨mt, hmt, hget⟩ := h
  refine ⟨mt.publish key v, ?_, by rw [get_publish, if_neg hne, hget]⟩
  rcases List.mem_cons.1 hmt with rfl | hmt
  · exact List.mem_cons_self
  · exact List.mem_cons_of_mem _ (List.mem_map_of_mem hmt)

theorem Holds.published {t : String} (h : m.Holds rk e) (hne : ∀ x ∈ ws, memKey x.1 ≠ rk) :
    (m.published t v bodies aged ws).Holds rk e := by
  induction ws generalizing m with
  | nil => exact h
  | cons x rest ih =>
    have hx := hne x List.mem_cons_self
    exact ih ((h.putInvisible hx).publish hx) fun y hy => hne y (List.mem_cons_of_mem _ hy)

/-- The entry under a key that a reader meets first: in the active memtable, or the newest immutable one. -/
def newest (m : MemTableSet) (rk : RecordKey) : Option MemEntry :=
  (m.active :: m.flushing.reverse).findSome? fun mt => mt.map[rk]?

theorem newest_rotate (m : MemTableSet) (rk : RecordKey) : m.rotate.newest rk = m.newest rk := by
  simp [newest, rotate]

theorem newest_putInvisible (m : MemTableSet) (e₀ : MemEntry) (aged : Bool) (rk : RecordKey) :
    (m.putInvisible e₀ aged).newest rk = if e₀.key = rk then some e₀ else m.newest rk := by
  have hput : ({ m with active := m.active.putInvisible e₀ } : MemTableSet).newest rk =
      if e₀.key = rk then some e₀ else m.newest rk := by
    by_cases hkey : e₀.key = rk <;> simp [newest, MemTable.putInvisible, List.findSome?_cons, hkey]
  unfold putInvisible
  simp only
  split
  · rw [newest_rotate, hput]
  · exact hput

theorem newest_publish (m : MemTableSet) (key rk : RecordKey) (v : Nat) : (m.publish key v).newest rk =
    (m.newest rk).map fun e => if key = rk then { e with commitVersion := (v : WithTop Nat) } else e := by
  have hlist : ∀ l : List MemTable, (l.map fun mt => mt.publish key v).findSome? (fun mt => mt.map[rk]?) =
      (l.findSome? fun mt => mt.map[rk]?).map fun e =>
        if key = rk then { e with commitVersion := (v : WithTop Nat) } else e := by
    intro l
    induction l with
    | nil => rfl
    | cons mt l ih =>
      rw [List.map_cons, List.findSome?_cons, List.findSome?_cons, get_publish, ih]
      by_cases hkey : key = rk
      · cases mt.map[rk]? <;> simp [hkey]
      · cases mt.map[rk]? <;> simp [hkey]
  have hall : (m.publish key v).active :: (m.publish key v).flushing.reverse =
      (m.active :: m.flushing.reverse).map fun mt => mt.publish key v := by simp [publish]
  rw [newest, hall, hlist]
  rfl

theorem newest_published {t : String} {x : String × WriteSetEntry} (m : MemTableSet) (hx : x ∈ ws)
    (honly : ∀ y ∈ ws, memKey y.1 = memKey x.1 → y = x) :
    (m.published t v bodies aged ws).newest (memKey x.1) = some (memEntry t v bodies x.1 x.2) := by
  -- the entry stays once it is there: a later write is of another key, or of this one again
  have hstay : ∀ (l : WriteSet) (m : MemTableSet), (∀ y ∈ l, memKey y.1 = memKey x.1 → y = x) →
      m.newest (memKey x.1) = some (memEntry t v bodies x.1 x.2) ∨ x ∈ l →
      (m.published t v bodies aged l).newest (memKey x.1) = some (memEntry t v bodies x.1 x.2) := by
    intro l
    induction l with
    | nil => exact fun m _ h => h.elim id fun h => absurd h (List.not_mem_nil)
    | cons y rest ih =>
      intro m honly h
      refine ih _ (fun z hz => honly z (List.mem_cons_of_mem _ hz)) ?_
      rw [newest_publish, newest_putInvisible]
      by_cases hkey : memKey y.1 = memKey x.1
      · obtain rfl := honly y List.mem_cons_self hkey
        refine .inl ?_
        simp [memEntry]
      · have hne : (memEntry t v bodies y.1 y.2).key ≠ memKey x.1 := hkey
        rw [if_neg hne]
        rcases h with h | h
        · exact .inl (by simp [h, hkey])
        · refine .inr ((List.mem_cons.1 h).resolve_left ?_)
          rintro rfl
          exact hkey rfl
  exact hstay ws m honly (.inr hx)

end MemTableSet

theorem stagedBodies_get {w : World} (hnodup : (ws.map (·.1)).Nodup) {acc : Table String Bytes}
    (h : w.stagedBodies acc ws = .ok bodies) :
    (∀ x ∈ ws, ∃ b, w.stagedBody x.2 = .ok b ∧ bodies[x.1]? = some b) ∧
      ∀ k : String, k ∉ ws.map (·.1) → bodies[k]? = acc[k]? := by
  induction ws generalizing acc with
  | nil =>
    cases h
    exact ⟨by simp, fun _ _ => rfl⟩
  | cons x rest ih =>
    obtain ⟨key, we⟩ := x
    obtain ⟨hfresh, hnodup⟩ := List.nodup_cons.1 hnodup
    simp only [World.stagedBodies] at h
    cases hbody : w.stagedBody we with
    | error x =>
      rw [hbody] at h
      cases h
    | ok b =>
      rw [hbody] at h
      obtain ⟨hrest, hkeep⟩ := ih hnodup h
      refine ⟨fun y hy => ?_, fun k hk => ?_⟩
      · rcases List.mem_cons.1 hy with rfl | hy
        · exact ⟨b, hbody, (hkeep key hfresh).trans (by simp)⟩
        · exact hrest y hy
      · simp only [List.map_cons, List.mem_cons, not_or] at hk
        rw [hkeep k hk.2, Table.get_insert, if_neg (Ne.symm hk.1)]

end Xtable
