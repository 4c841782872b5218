import Xtable.Lib.Comparison
import Xtable.Schema.Query

/-! The comparison of a query takes values of different kinds as equal, so it orders values of one kind and `null`
    only. On these a query sorts, and the range filters agree with equality where equal in the order is equal. -/

namespace Xtable

/-! ## Kinds -/

inductive Kind where
  | bool
  | number
  | string
  | array
  | object
  deriving DecidableEq, Repr

/-- `null` has no kind. -/
def Value.kind : Value → Option Kind
  | null => none
  | bool _ => some .bool
  | number _ => some .number
  | string _ => some .string
  | array _ => some .array
  | object _ => some .object

/-- `null`, or a value of the kind. -/
def Value.Like (k : Kind) (v : Value) : Prop := ∀ k' ∈ v.kind, k' = k

namespace Value

variable {k : Kind}

theorem kind_eq_none {v : Value} : v.kind = none ↔ v = null := by cases v <;> simp [kind]

theorem cmp_null {v : Value} (h : v ≠ null) : null.cmp v = .lt ∧ v.cmp null = .gt := by
  cases v with
  | null => exact absurd rfl h
  | bool | number | string | array | object => exact ⟨rfl, rfl⟩

theorem Like.kind_eq {v : Value} (h : Like k v) (hnull : v ≠ null) : v.kind = some k := by
  cases hv : v.kind with
  | none => exact absurd (kind_eq_none.1 hv) hnull
  | some k' => rw [h k' hv]

theorem cmp_preorder_of_key {β : Type} [LinearOrder β] (key : Value → β)
    (h : ∀ a b : Value, a.kind = some k → b.kind = some k → a.cmp b = compare (key a) (key b)) : PreorderOn (Like k) cmp := by
  have hvalues : PreorderOn (fun v => Like k v ∧ ¬ v = null) cmp :=
    .of_compare key fun a b ha hb => h a b (ha.1.kind_eq ha.2) (hb.1.kind_eq hb.2)
  refine hvalues.with_least ?_ ?_ ?_
  · rintro _ _ rfl rfl
    rfl
  · rintro _ b rfl hb
    exact (cmp_null hb).1
  · rintro a _ ha rfl
    exact (cmp_null ha).2

def boolKey : Value → Bool
  | bool b => b
  | _ => false

def numberKey : Value → Int
  | number n => n.asF64
  | _ => 0

def stringKey : Value → String
  | string s => s
  | _ => ""

def arrayKey : Value → Nat
  | array items => items.length
  | _ => 0

theorem cmp_preorder (k : Kind) : PreorderOn (Like k) cmp := by
  cases k with
  | bool =>
    refine cmp_preorder_of_key boolKey fun a b ha hb => ?_
    cases a <;> cases b <;> simp [kind] at ha hb
    rfl
  | number =>
    refine cmp_preorder_of_key numberKey fun a b ha hb => ?_
    cases a <;> cases b <;> simp [kind] at ha hb
    rfl
  | string =>
    refine cmp_preorder_of_key stringKey fun a b ha hb => ?_
    cases a <;> cases b <;> simp [kind] at ha hb
    rfl
  | array =>
    refine cmp_preorder_of_key arrayKey fun a b ha hb => ?_
    cases a <;> cases b <;> simp [kind] at ha hb
    rfl
  | object =>
    refine cmp_preorder_of_key (fun _ => ()) fun a b ha hb => ?_
    cases a <;> cases b <;> simp [kind] at ha hb
    rfl

theorem cmp_of_kind_ne {a b : Value} (ha : a ≠ null) (hb : b ≠ null) (h : a.kind ≠ b.kind) : a.cmp b = .eq := by
  cases a <;> cases b <;> simp [kind] at h ha hb <;> rfl

/-- Values of one kind, next to `null`, or values of which no two of a kind are told apart. -/
def Sortable (vs : List Value) : Prop :=
  (∃ k, ∀ v ∈ vs, v.Like k) ∨ ∀ a ∈ vs, ∀ b ∈ vs, a.kind = b.kind → a.cmp b = .eq

theorem preorderOn_iff {vs : List Value} : PreorderOn (· ∈ vs) cmp ↔ Sortable vs := by
  constructor
  · intro h
    refine or_iff_not_imp_right.2 fun hdiffer => ?_
    push Not at hdiffer
    obtain ⟨a, ha, b, hb, hkind, hne⟩ := hdiffer
    have hnull : a ≠ null := by
      rintro rfl
      obtain rfl := kind_eq_none.1 hkind.symm
      exact hne rfl
    obtain ⟨k, hk⟩ := Option.ne_none_iff_exists'.1 (mt kind_eq_none.1 hnull)
    -- a value of another kind would be equal to both, and they are not equal
    refine ⟨k, fun v hv k' hk' => ?_⟩
    by_contra hother
    have hv' : v ≠ null := fun hnull => by simp [hnull, kind] at hk'
    have hb' : b ≠ null := mt kind_eq_none.2 (by simp [← hkind, hk])
    have hav : a.cmp v = .eq := cmp_of_kind_ne hnull hv' fun heq => hother (Option.some.inj (hk'.symm.trans (heq.symm.trans hk)))
    have hvb : v.cmp b = .eq :=
      cmp_of_kind_ne hv' hb' fun heq => hother (Option.some.inj (hk'.symm.trans (heq.trans (hkind.symm.trans hk))))
    exact hne (h.eq_trans ha hv hb hav hvb)
  · rintro (⟨k, hk⟩ | heq)
    · exact (cmp_preorder k).mono hk
    · have hvalues : PreorderOn (fun v => v ∈ vs ∧ ¬ v = null) cmp := .of_eq fun a b ha hb => by
        by_cases hkind : a.kind = b.kind
        · exact heq a ha.1 b hb.1 hkind
        · exact cmp_of_kind_ne ha.2 hb.2 hkind
      refine hvalues.with_least ?_ ?_ ?_
      · rintro _ _ rfl rfl
        rfl
      · rintro _ b rfl hb
        exact (cmp_null hb).1
      · rintro a _ ha rfl
        exact (cmp_null ha).2

end Value

/-! ## Sorting -/

theorem OrderBy.compareFields_preorder {p : Value → Prop} (h : PreorderOn p Value.cmp) :
    PreorderOn (fun o => ∀ v ∈ o, p v) compareFields := by
  have hvalues : PreorderOn (fun o : Option Value => (∀ v ∈ o, p v) ∧ ¬ o = none) compareFields := by
    refine ⟨?_, ?_⟩
    · rintro (_ | a) (_ | b) ⟨ha, hsa⟩ ⟨hb, hsb⟩
      · exact absurd rfl hsa
      · exact absurd rfl hsa
      · exact absurd rfl hsb
      · exact h.swap a b (ha a rfl) (hb b rfl)
    · rintro (_ | a) (_ | b) (_ | c) ⟨ha, hsa⟩ ⟨hb, hsb⟩ ⟨hc, hsc⟩
      all_goals first
        | exact absurd rfl hsa
        | exact absurd rfl hsb
        | exact absurd rfl hsc
        | exact h.trans a b c (ha a rfl) (hb b rfl) (hc c rfl)
  refine hvalues.with_least ?_ ?_ ?_
  · rintro _ _ rfl rfl
    rfl
  · rintro _ (_ | b) rfl hb
    · exact absurd rfl hb
    · rfl
  · rintro (_ | a) _ ha rfl
    · exact absurd rfl ha
    · rfl

theorem OrderBy.compareRecords_preorder (ob : OrderBy) {l : List Record} :
    PreorderOn (· ∈ l) ob.compareRecords ↔ PreorderOn (· ∈ l.filterMap fun r => r.body.lookup ob.field) Value.cmp := by
  have hdir : PreorderOn (· ∈ l) ob.compareRecords ↔
      PreorderOn (· ∈ l) fun a b => compareFields (a.body.lookup ob.field) (b.body.lookup ob.field) := by
    unfold OrderBy.compareRecords
    cases ob.dir with
    | asc => exact Iff.rfl
    | desc => exact ⟨fun h => by simpa using h.reverse, PreorderOn.reverse⟩
  rw [hdir]
  constructor
  · intro h
    have hfield : ∀ v ∈ l.filterMap fun r => r.body.lookup ob.field, ∃ r ∈ l, r.body.lookup ob.field = some v :=
      fun v => List.mem_filterMap.1
    refine ⟨fun a b ha hb => ?_, fun a b c ha hb hc hab hbc => ?_⟩
    · obtain ⟨r, hr, hra⟩ := hfield a ha
      obtain ⟨r', hr', hrb⟩ := hfield b hb
      have hswap := h.swap r r' hr hr'
      simp only [hra, hrb] at hswap
      exact hswap
    · obtain ⟨r, hr, hra⟩ := hfield a ha
      obtain ⟨r', hr', hrb⟩ := hfield b hb
      obtain ⟨r'', hr'', hrc⟩ := hfield c hc
      have htrans := h.trans r r' r'' hr hr' hr''
      simp only [hra, hrb, hrc] at htrans
      exact htrans hab hbc
  · intro h
    refine ((compareFields_preorder h).comap fun r : Record => r.body.lookup ob.field).mono fun r hr v hv => ?_
    exact List.mem_filterMap.2 ⟨r, hr, hv⟩

/-- A sort that panics wherever the comparison does not order the elements. -/
noncomputable def SortBy.strict : SortBy := by
  classical exact
    { sort := fun cmp l => if PreorderOn (· ∈ l) cmp then some (l.insertionSort fun a b => cmp a b ≠ .gt) else none
      stable := fun cmp l h => if_pos h
      perm := fun cmp l l' h => by
        split at h
        · exact Option.some.inj h ▸ List.perm_insertionSort _ l
        · cases h }

theorem SortBy.strict_eq_some {cmp : Record → Record → Ordering} {l l' : List Record}
    (h : SortBy.strict.sort cmp l = some l') : PreorderOn (· ∈ l) cmp := by
  simp only [SortBy.strict] at h
  split at h
  case isTrue hp => exact hp
  case isFalse => cases h

namespace Query

variable {q : Query} {slice : SortBy} {records : List Record} {ob : OrderBy}

/-- The same query for all its results. -/
def unpaged (q : Query) : Query := { q with limit := none, offset := 0 }

theorem run_unpaged (q : Query) (records : List Record) :
    q.unpaged.run slice records = q.sorted slice (records.filter q.selects) := by
  have hpage : q.unpaged.page = id := funext fun l => by simp [page, unpaged]
  rw [run, hpage, Option.map_id]
  rfl

theorem run_eq_page (q : Query) (records : List Record) : q.run slice records = (q.unpaged.run slice records).map q.page := by
  rw [run_unpaged]
  rfl

theorem page_sublist (q : Query) (l : List Record) : (q.page l).Sublist l := by
  unfold page
  cases q.limit with
  | none => exact List.drop_sublist _ _
  | some n => exact (List.take_sublist _ _).trans (List.drop_sublist _ _)

def fieldValues (q : Query) (field : String) (records : List Record) : List Value :=
  (records.filter q.selects).filterMap fun r => r.body.lookup field

/-- The query answers a page of the matching records, sorted, missing fields first (last in descending order); records
that compare as equal keep their order. -/
structure Sorts (slice : SortBy) (q : Query) (ob : OrderBy) (records out all : List Record) : Prop where
  run : q.run slice records = some out
  unpaged : q.unpaged.run slice records = some all
  sorted : out.Pairwise fun a b => ob.compareRecords b a ≠ .lt
  missing : out.Pairwise fun a b => match ob.dir with
    | .asc => b.body.lookup ob.field = none → a.body.lookup ob.field = none
    | .desc => a.body.lookup ob.field = none → b.body.lookup ob.field = none
  perm : all.Perm (records.filter q.selects)
  stable : ∀ a b, [a, b].Sublist (records.filter q.selects) → ob.compareRecords a b = .eq → [a, b].Sublist all

theorem sorts_of_preorder (hob : q.orderBy = some ob) (hp : PreorderOn (· ∈ records.filter q.selects) ob.compareRecords) :
    ∃ out all, q.Sorts slice ob records out all := by
  set all := (records.filter q.selects).insertionSort fun a b => ob.compareRecords a b ≠ .gt with hall
  have hunpaged : q.unpaged.run slice records = some all := by
    rw [run_unpaged, Query.sorted, hob]
    exact slice.stable _ _ hp
  have hperm : all.Perm (records.filter q.selects) := List.perm_insertionSort _ _
  have hsub := q.page_sublist all
  have hpairs : (q.page all).Pairwise fun a b => ob.compareRecords a b ≠ .gt :=
    (hp.pairwise_insertionSort fun _ h => h).sublist hsub
  have hmatching : ∀ r ∈ q.page all, r ∈ records.filter q.selects := fun r hr => hperm.mem_iff.1 (hsub.subset hr)
  refine ⟨q.page all, all, ?_, hunpaged, ?_, ?_, hperm, fun a b hpair heq => ?_⟩
  · rw [run_eq_page, hunpaged, Option.map_some]
  · exact hpairs.imp_of_mem fun {a b} ha hb => (hp.ne_gt_iff (hmatching a ha) (hmatching b hb)).1
  · refine hpairs.imp fun {a b} hab => ?_
    unfold OrderBy.compareRecords at hab
    cases hdir : ob.dir with
    | asc =>
      intro hb
      rw [hdir, hb] at hab
      cases ha : a.body.lookup ob.field with
      | none => rfl
      | some v => simp [ha, OrderBy.compareFields] at hab
    | desc =>
      intro ha
      rw [hdir, ha] at hab
      cases hb : b.body.lookup ob.field with
      | none => rfl
      | some v => simp [hb, OrderBy.compareFields, Ordering.swap] at hab
  · exact List.pair_sublist_insertionSort (by simp [heq]) hpair

end Query

/-- The comparison orders the values of the field among the matching records exactly if they have one kind next to `null`, or no
two of a kind are told apart; and exactly then the query sorts, whichever stable sort the library has. -/
theorem query_sorts {q : Query} {ob : OrderBy} (hob : q.orderBy = some ob) (records : List Record) :
    (PreorderOn (· ∈ q.fieldValues ob.field records) Value.cmp ↔ Value.Sortable (q.fieldValues ob.field records)) ∧
    ((∀ slice, ∃ out all, q.Sorts slice ob records out all) ↔ Value.Sortable (q.fieldValues ob.field records)) := by
  have hvalues : PreorderOn (· ∈ records.filter q.selects) ob.compareRecords ↔
      Value.Sortable (q.fieldValues ob.field records) := ob.compareRecords_preorder.trans Value.preorderOn_iff
  refine ⟨Value.preorderOn_iff, fun h => hvalues.1 ?_, fun h slice => q.sorts_of_preorder hob (hvalues.2 h)⟩
  obtain ⟨out, all, hsorts⟩ := h .strict
  have hunpaged := hsorts.unpaged
  rw [Query.run_unpaged, Query.sorted, hob] at hunpaged
  exact SortBy.strict_eq_some hunpaged

def fieldRecord (recordId : String) (v : Value) : Record := ⟨"s", "t", recordId, .object [("a", v)], 0, 1, false⟩

def byField : Query := { orderBy := some ⟨"a", .asc⟩ }

def mixedNumbers : List Record :=
  [fieldRecord "two" (.number (.posInt 2)), fieldRecord "null" .null, ⟨"s", "t", "none", .object [], 0, 1, false⟩,
    fieldRecord "one" (.number (.posInt 1))]

theorem query_sorts_numbers : ∃ out all, byField.Sorts .insertion ⟨"a", .asc⟩ mixedNumbers out all ∧
    out.map (·.recordId) = ["none", "null", "one", "two"] := by
  have hkinds : ((byField.fieldValues "a" mixedNumbers).all fun v => v.kind.all (· = .number)) = true := by decide +kernel
  have horder : byField.orderBy = some ⟨"a", .asc⟩ := rfl
  obtain ⟨out, all, hsorts⟩ := (query_sorts horder mixedNumbers).2.2
    (.inl ⟨.number, fun v hv k hk => of_decide_eq_true ((Option.all_eq_true ..).1 (List.all_eq_true.1 hkinds v hv) k hk)⟩)
    .insertion
  have hids : (byField.run .insertion mixedNumbers).map (·.map (·.recordId)) = some ["none", "null", "one", "two"] := by
    decide +kernel
  rw [hsorts.run, Option.map_some] at hids
  exact ⟨out, all, hsorts, Option.some.inj hids⟩

/-- Between two numbers that are the wrong way around, a string is equal to both. -/
theorem query_leaves_unsorted : (Value.number (.posInt 2)).cmp (.string "x") = .eq ∧
    (Value.string "x").cmp (.number (.posInt 1)) = .eq ∧ (Value.number (.posInt 2)).cmp (.number (.posInt 1)) = .gt ∧
    (byField.run .insertion [fieldRecord "two" (.number (.posInt 2)), fieldRecord "x" (.string "x"),
      fieldRecord "one" (.number (.posInt 1))]).map (·.map (·.recordId)) = some ["two", "x", "one"] := by
  decide +kernel

/-! ## Range filters -/

theorem Number.asF64_eq_of_same {m n : Number} (h : m.same n = true) : m.asF64 = n.asF64 := by
  cases m <;> cases n <;> simp only [same, decide_eq_true_eq, Bool.false_eq_true] at h
  · rw [h]
  · rw [h]
  · exact h

namespace Value

variable {a b : Value}

theorem length_of_sameItems : ∀ {as bs : List Value}, sameItems as bs = true → as.length = bs.length
  | [], [], _ => rfl
  | _ :: as, _ :: bs, h => by
    simp only [sameItems, Bool.and_eq_true] at h
    rw [List.length_cons, List.length_cons, length_of_sameItems h.2]

theorem cmp_of_same (h : a.same b = true) : a.cmp b = .eq := by
  cases a with
  | null => cases b <;> first | rfl | simp [same] at h
  | bool x => cases b <;> simp [same, cmp] at h ⊢; exact h
  | number m =>
    cases b with
    | number n => exact compare_eq_iff_eq.2 (Number.asF64_eq_of_same (by simpa [same] using h))
    | null | bool | string | array | object => simp [same] at h
  | string x => cases b <;> simp [same, cmp] at h ⊢; exact h
  | array as =>
    cases b with
    | array bs => exact compare_eq_iff_eq.2 (length_of_sameItems (by simpa [same] using h))
    | null | bool | number | string | object => simp [same] at h
  | object => cases b <;> first | rfl | simp [same] at h

/-- The pairs of values that the order tells apart if they differ. -/
def Told : Value → Value → Prop
  | null, _ | _, null => True
  | bool _, bool _ | string _, string _ => True
  | number m, number n => m.asF64 = n.asF64 → m.same n = true
  | array as, array bs => as.length = bs.length → sameItems as bs = true
  | object as, object bs => (object as).same (object bs) = true
  | _, _ => False

theorem told_iff : a.Told b ↔ (a.cmp b = .eq → a.same b = true) := by
  cases a <;> cases b <;> simp [Told, cmp, same]

end Value

/-- The range filters agree with equality exactly if the field is missing or the order tells it from the value of the filter. -/
theorem range_filters_agree (body value : Value) (field : String) :
    ((Filter.matches body (.ge field value) ↔ Filter.matches body (.gt field value) ∨ Filter.matches body (.eq field value)) ∧
    (Filter.matches body (.le field value) ↔ Filter.matches body (.lt field value) ∨ Filter.matches body (.eq field value)) ∧
    ¬ (Filter.matches body (.lt field value) ∧ Filter.matches body (.eq field value)) ∧
    ¬ (Filter.matches body (.lt field value) ∧ Filter.matches body (.gt field value)) ∧
    ¬ (Filter.matches body (.eq field value) ∧ Filter.matches body (.gt field value)) ∧
    (Filter.matches body (.ge field value) → Filter.matches body (.le field value) → Filter.matches body (.eq field value)) ∧
    (Filter.matches body (.ne field value) ↔ ¬ Filter.matches body (.eq field value))) ↔
    ∀ v ∈ body.lookup field, v.Told value := by
  cases hv : body.lookup field with
  | none => simp [Filter.matches, hv]
  | some v =>
    have hsame : v.same value = true → v.cmp value = .eq := Value.cmp_of_same
    simp only [Filter.matches, hv, Option.any_some, decide_eq_true_eq, Bool.not_eq_true', ← Bool.not_eq_true,
      Option.mem_some_iff, forall_eq', Value.told_iff]
    cases hcmp : v.cmp value <;> simp [hcmp] at hsame ⊢ <;> simp [hsame]

/-- An integer that no `f64` holds and its neighbour, arrays of one length, and values of two kinds are equal in the order. -/
theorem range_filters_disagree :
    [(Value.number (.posInt (2 ^ 53 + 1)), Value.number (.posInt (2 ^ 53))), (.array [.null], .array [.bool true]),
      (.string "x", .bool true)].all (fun x =>
        Filter.matches (.object [("a", x.1)]) (.ge "a" x.2) && Filter.matches (.object [("a", x.1)]) (.le "a" x.2) &&
        !Filter.matches (.object [("a", x.1)]) (.gt "a" x.2) && !Filter.matches (.object [("a", x.1)]) (.lt "a" x.2) &&
        !Filter.matches (.object [("a", x.1)]) (.eq "a" x.2)) = true := by
  decide +kernel

/-! ## Pages -/

end Xtable
