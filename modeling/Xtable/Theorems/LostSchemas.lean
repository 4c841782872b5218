import Xtable.Theorems.ChunkFormat
import Xtable.Theorems.NodeRuns
import Xtable.Theorems.Rebuilt
import Xtable.Theorems.SchemaVersions

/-! A cold rebuild writes no row of the schema index, so the rebuilt store knows no schema, and gives the next one
    the first version again. -/

namespace Xtable

variable {e : SpaceEnv} {w w' : World} {space name : String}

/-- A server started on a rebuilt store, with the bucket of the old one. -/
def World.coldStart (w : World) (s : Store) : World := { store := s, bucket := w.bucket }

/-- The schemas of a space are read as before at the current version, and no registered version is given out again. -/
structure SchemasRestored (e : SpaceEnv) (w w' : World) (space : String) : Prop where
  get : ∀ name version, Space.getSchema e w' w'.store.globalVersion space name version none =
    Space.getSchema e w w'.store.globalVersion space name version none
  list : Space.listSchemas e w' w'.store.globalVersion space = Space.listSchemas e w w'.store.globalVersion space
  next : ∀ name i, w.store.SchemaCommitted space name i → ∀ t, ∃ next,
    (Engine.nextSchemaVersion t space name).run World.exec w' = (.ok next, w') ∧ i < next

theorem RebuildAct.schemaIndex_exec (a : RebuildAct) (s : Store) : (a.exec s).2.schemaIndex = s.schemaIndex := by
  cases a with
  | putRecordVersionsBulk updates =>
    exact foldl_keeps (f := fun (s : Store) u => s.putRecordVersion u.1 u.2.1 u.2.2) Store.schemaIndex (fun _ _ => rfl) updates s
  | appendChainEntriesBulk entries =>
    simp only [RebuildAct.exec, Store.appendChainEntriesBulk]
    split <;> rfl
  | _ => rfl

theorem schemaIndex_rebuilt {c : Codecs} {backend : Backend} {listed : Except String (List ListedObject)}
    {order : List (RecordKey × Rebuild.PerKey) → List (RecordKey × Rebuild.PerKey)} :
    ((rebuild c backend listed order).run RebuildAct.exec {}).2.schemaIndex = ∅ :=
  Prog.run_keeps RebuildAct.exec (I := fun s => s.schemaIndex = ∅) (fun a s hs => (a.schemaIndex_exec s).trans hs) _ rfl

section Empty

variable (hindex : ∀ name, w.store.getSchemaIndex space name = none)

include hindex

theorem Space.getSchema_unindexed (snapshot : Nat) (version : Option Nat) :
    Space.getSchema e w snapshot space name version none = .ok none := by
  simp [Space.getSchema, hindex]

theorem Space.listSchemas_unindexed (snapshot : Nat) : Space.listSchemas e w snapshot space = .ok [] := by
  have hnone : w.store.iterSchemaIndex space = [] := by
    refine List.eq_nil_iff_forall_not_mem.2 fun x hx => ?_
    obtain ⟨⟨⟨space', name'⟩, idx⟩, hmem, -⟩ := List.mem_map.1 hx
    obtain ⟨hmem, hspace⟩ := List.mem_filter.1 hmem
    have hspace : space' = space := of_decide_eq_true hspace
    have hidx : w.store.getSchemaIndex space name' = some idx := hspace ▸ Table.mem_toList.1 hmem
    rw [hindex] at hidx
    cases hidx
  simp [Space.listSchemas, hnone]
  rfl

end Empty

/-- A rebuild of what a run has flushed restores the schemas of a space if and only if no schema of it was committed. -/
theorem rebuild_restores_schemas (e : SpaceEnv) {hist : List (World × NodeOp × World)} {w : World}
    (hrun : Run (NodeOp.step e.toEnv e.codecs) {} hist w) (hwhole : ∀ x ∈ hist, x.2.1.whole = true)
    (listed : Except String (List ListedObject))
    (order : List (RecordKey × Rebuild.PerKey) → List (RecordKey × Rebuild.PerKey)) {r : Except Fault Rebuild.Report} {s : Store}
    (hrebuild : (rebuild e.codecs ⟨w.bucket, e.etag, e.notFound⟩ listed order).run RebuildAct.exec {} = (r, s))
    (space : String) :
    SchemasRestored e w (w.coldStart s) space ↔ ∀ name i, ¬ w.store.SchemaCommitted space name i := by
  have horderly := Orderly.of_run hrun hwhole
  have hempty : s.schemaIndex = ∅ := by
    have hkeep := @schemaIndex_rebuilt e.codecs ⟨w.bucket, e.etag, e.notFound⟩ listed order
    rwa [hrebuild] at hkeep
  have hnew : ∀ name, (w.coldStart s).store.getSchemaIndex space name = none := by
    intro name
    simp [World.coldStart, Store.getSchemaIndex, hempty]
  constructor
  · intro h name i hcommitted
    have hfirst := horderly.opened.first space name (horderly.opened.indexed space name i hcommitted)
    obtain ⟨next, hnext, hlt⟩ := h.next name 1 hfirst ""
    have hone : (w.coldStart s).nextSchemaVersion "" space name = 1 := by
      rw [World.nextSchemaVersion, hnew]
      simp [World.pendingOf, World.coldStart]
    rw [nextSchemaVersion_run, hone] at hnext
    obtain rfl := Except.ok.inj (Prod.mk.inj hnext).1
    exact absurd hlt (lt_irrefl 1)
  · intro hnone
    have hold : ∀ name, w.store.getSchemaIndex space name = none := by
      intro name
      by_contra hsome
      exact hnone name 1 (horderly.opened.first space name hsome)
    refine ⟨fun name version => ?_, ?_, fun name i hcommitted => absurd hcommitted (hnone name i)⟩
    · rw [Space.getSchema_unindexed hnew, Space.getSchema_unindexed hold]
    · rw [Space.listSchemas_unindexed hnew, Space.listSchemas_unindexed hold]

def SpaceEnv.stored : SpaceEnv := { SpaceEnv.sample with codecs := .stored }

abbrev Env.stored : Env := SpaceEnv.stored.toEnv

def schemaOps : List NodeOp :=
  let ops : List NodeOp := [.request (.call (.begin "T" none 0)), .request (.registerSchema "T" "s" "n" .stringSchema),
    .request (.commitTxn "T" fun _ => false), .rotate]
  ops ++ [.flushQueued (exec (NodeOp.step .stored .stored) ops {}) "c"]

theorem rebuild_restores_schemas_elsewhere : ∃ hist w, Run (NodeOp.step .stored .stored) {} hist w ∧
    (∀ x ∈ hist, x.2.1.whole = true) ∧ w.store.SchemaCommitted "s" "n" 1 ∧
    ∃ listed report s, w.Lists listed ∧
      (rebuild .stored ⟨w.bucket, id, id⟩ (.ok listed) id).run RebuildAct.exec {} = (.ok report, s) ∧
      SchemasRestored .stored w (w.coldStart s) "u" := by
  obtain ⟨w, hrun, htest⟩ := Run.exists_of_exec
    (guarded (fun _ op => op.whole) (NodeOp.step .stored .stored)) {} schemaOps
    (fun w => decide (w.bucket.toList.map (·.1) = ["_xtable/s/_schema/19/c.xtc"] ∧
      w.store.schemaIndex.toList.map (·.1) = [("s", "n")] ∧ (w.store.getSchemaIndex "s" "n").isSome ∧
      ((rebuild .stored ⟨w.bucket, id, id⟩ (.ok [⟨"_xtable/s/_schema/19/c.xtc", 0, ""⟩]) id).run RebuildAct.exec {}).1 =
        .ok ⟨1, 1, 0⟩)) (by decide +kernel)
  obtain ⟨hbucket, hindex, hsome, hok⟩ := of_decide_eq_true htest
  obtain ⟨hrun, hwhole⟩ := Run.of_guarded hrun
  have hopened := (Orderly.of_run hrun hwhole).opened
  have hnone : ∀ name i, ¬ w.store.SchemaCommitted "u" name i := by
    intro name i hcommitted
    obtain ⟨idx, hidx⟩ := Option.ne_none_iff_exists'.1 (hopened.indexed "u" name i hcommitted)
    have hmem := List.mem_map_of_mem (f := (·.1)) (Table.mem_toList.2 hidx)
    simp [hindex] at hmem
  refine ⟨_, w, hrun, hwhole, hopened.first "s" "n" (Option.isSome_iff_ne_none.1 hsome), _, ⟨1, 1, 0⟩, _, ?_, Prod.ext hok rfl,
    (rebuild_restores_schemas .stored hrun hwhole _ id rfl "u").2 hnone⟩
  rw [World.Lists, hbucket]
  exact .refl _

def schemaVersions (w : World) : Except Fault (Option Nat) × Except Fault (List Nat) :=
  ((Space.getSchema .stored w 1 "s" "n" none none).map (·.map (·.version)),
    (Space.listSchemas .stored w 1 "s").map (·.map (·.version)))

/-- A schema that was registered and flushed is gone after a rebuild, and its version is given out again. -/
theorem rebuild_loses_schemas : ∃ hist w, Run (NodeOp.step .stored .stored) {} hist w ∧
    (∀ x ∈ hist, x.2.1.whole = true) ∧ w.Lists [⟨"_xtable/s/_schema/19/c.xtc", 0, ""⟩] ∧ ∃ report s,
      (rebuild .stored ⟨w.bucket, id, id⟩ (.ok [⟨"_xtable/s/_schema/19/c.xtc", 0, ""⟩]) id).run RebuildAct.exec {} =
        (.ok report, s) ∧ s.globalVersion = 1 ∧
      schemaVersions w = (.ok (some 1), .ok [1]) ∧ schemaVersions (w.coldStart s) = (.ok none, .ok []) ∧
      (Engine.nextSchemaVersion "U" "s" "n").run World.exec (w.coldStart s) = (.ok 1, w.coldStart s) := by
  obtain ⟨w, hrun, htest⟩ := Run.exists_of_exec
    (guarded (fun _ op => op.whole) (NodeOp.step .stored .stored)) {} schemaOps
    (fun w =>
      let out := (rebuild .stored ⟨w.bucket, id, id⟩ (.ok [⟨"_xtable/s/_schema/19/c.xtc", 0, ""⟩]) id).run RebuildAct.exec {}
      decide (w.bucket.toList.map (·.1) = ["_xtable/s/_schema/19/c.xtc"] ∧ out.1 = .ok ⟨1, 1, 0⟩ ∧
        out.2.globalVersion = 1 ∧ schemaVersions w = (.ok (some 1), .ok [1]) ∧
        schemaVersions (w.coldStart out.2) = (.ok none, .ok []) ∧ (w.coldStart out.2).nextSchemaVersion "U" "s" "n" = 1))
    (by decide +kernel)
  obtain ⟨hbucket, hok, hversion, hbefore, hafter, hnext⟩ := of_decide_eq_true htest
  obtain ⟨hrun, hwhole⟩ := Run.of_guarded hrun
  refine ⟨_, w, hrun, hwhole, ?_, ⟨1, 1, 0⟩, _, Prod.ext hok rfl, hversion, hbefore, hafter, ?_⟩
  · rw [World.Lists, hbucket]
    exact .refl _
  · rw [nextSchemaVersion_run, hnext]

end Xtable
