import Xtable.Backend.Client

/-! What `put_object` leaves in the object store, for every sequence of answers. A body in parts is stored without
    its content type and metadata. An upload whose parts fail is aborted; one whose completion fails is not. -/

namespace Xtable

open Prog

variable {size : Nat} {parts : List (Nat × String)} {body : Bytes} {chunks : List Bytes}

namespace BackendClient

section Requests

variable {S α : Type} {h : (e : BackendRequest) → S → e.Answer × S} {c : BackendClient} {s : S} {key id : String}

theorem send_bind_ok {e : BackendRequest} {f : e.Response → BackendProg α} {resp : e.Response} (hok : (h e s).1 = .ok resp) :
    ((send e).bind f).run h s = (f resp).run h (h e s).2 ∧
      ((send e).bind f).trace h s = ⟨e, .ok resp⟩ :: (f resp).trace h (h e s).2 := by
  simp only [send, act_bind, run_act, trace_act, hok, ret_bind, and_self]

theorem send_bind_error {e : BackendRequest} {f : e.Response → BackendProg α} {x : SdkError} (herr : (h e s).1 = .error x) :
    ((send e).bind f).run h s = (.error (.fromSdk x), (h e s).2) ∧
      ((send e).bind f).trace h s = [⟨e, .error x⟩] := by
  simp only [send, act_bind, run_act, trace_act, herr, fail_bind, run_fail, trace, and_self]

/-- What is left of an upload once its parts were tried. -/
def concludeUpload (c : BackendClient) (key id : String) :
    Except BackendError (List (Nat × String)) → BackendProg PutObjectResult
  | .error e => do
    let _ ← (c.abortMultipart key id).attempt
    .fail e
  | .ok parts => do
    c.checkParts key id parts
    let compositeEtag ← c.completeMultipart key id parts
    if compositeEtag = "" then .fail (.internal "complete_multipart returned empty etag")
    else return { etag := compositeEtag, versionId := none }

/-- What is left of an upload once its id is known. -/
def finishUpload (c : BackendClient) (key : String) (body : Bytes) (id : String) : BackendProg PutObjectResult :=
  (c.multipartUploadParts key id body c.partSize c.partSize_pos).attempt.bind (c.concludeUpload key id)

theorem putObjectMultipart_eq (c : BackendClient) (key : String) (body : Bytes) (ct : Option String)
    (md : List (String × String)) : c.putObjectMultipart key body ct md =
      (send (.createMultipartUpload c.bucketName (backendKey key))).bind fun resp =>
        c.finishUpload key body (Option.getD resp "") := by
  simp only [putObjectMultipart, createMultipart, bind_eq, bind_assoc]
  rfl

/-! ## Failed uploads -/

def IsPart : BackendRequest → Prop
  | .uploadPart .. => True
  | _ => False

theorem attempt_only {P : BackendRequest → Prop} {p : BackendProg α} (hp : p.Only P) : p.attempt.Only P := by
  induction p with
  | ret a | fail x => trivial
  | act e k ih => exact ⟨hp.1, fun r => ih r (hp.2 r)⟩

theorem uploadPartsFrom_only (c : BackendClient) (key id : String) (body : Bytes) (hsize : 0 < size) (offset pn : Nat) :
    (c.uploadPartsFrom key id body size hsize offset pn).Only IsPart := by
  fun_induction c.uploadPartsFrom key id body size hsize offset pn with
  | case1 offset pn hlt stop chunk ih =>
    refine Only.bind (Only.bind ⟨trivial, fun r => ?_⟩ fun _ => trivial) fun etag => ih.bind fun parts => trivial
    cases r <;> trivial
  | case2 offset pn hlt => trivial

/-- The run has been given this upload id. -/
def Obtained (t : List ((e : BackendRequest) × e.Answer)) (id : String) : Prop :=
  ∃ bucket key, ∃ resp : Option String,
    (⟨.createMultipartUpload bucket key, .ok resp⟩ : (e : BackendRequest) × e.Answer) ∈ t ∧ resp.getD "" = id

/-- The run has asked to abort the upload. -/
def AbortSent (t : List ((e : BackendRequest) × e.Answer)) (id : String) : Prop :=
  ∃ bucket key, .abortMultipartUpload bucket key id ∈ t.map Sigma.fst

/-- Each completion that the run has asked for was answered with an etag. -/
def Acknowledged (t : List ((e : BackendRequest) × e.Answer)) : Prop :=
  ∀ bucket key id parts, ∀ answer : Except SdkError (Option String),
    (⟨.completeMultipartUpload bucket key id parts, answer⟩ : (e : BackendRequest) × e.Answer) ∈ t →
      ∃ etag, answer = .ok (some etag) ∧ etag ≠ ""

theorem abort_fails (c : BackendClient) (key id : String) (x : BackendError) (s : S) : ∃ answer,
    ((c.abortMultipart key id).attempt.bind fun _ => (.fail x : BackendProg α)).trace h s =
      [⟨.abortMultipartUpload c.bucketName (backendKey key) id, answer⟩] ∧
    (((c.abortMultipart key id).attempt.bind fun _ => (.fail x : BackendProg α)).run h s).1 = .error x := by
  let e : BackendRequest := .abortMultipartUpload c.bucketName (backendKey key) id
  refine ⟨(h e s).1, ?_⟩
  cases hanswer : (h e s).1 <;>
    simp [abortMultipart, send, attempt, bind_eq, act_bind, e, hanswer, trace, ret_bind, fail_bind]

theorem checkParts_cases (c : BackendClient) (key id : String) (parts : List (Nat × String)) :
    c.checkParts key id parts = .ret () ∨
      ∃ x, c.checkParts key id parts = (c.abortMultipart key id).attempt.bind fun _ => .fail x := by
  induction parts with
  | nil => exact .inl rfl
  | cons part parts ih =>
    obtain ⟨pn, etag⟩ := part
    rw [checkParts]
    split
    · exact .inr ⟨_, rfl⟩
    · exact ih

theorem finishUpload_trace (c : BackendClient) (key id : String) (body : Bytes) (s : S) :
    ∃ before last, (c.finishUpload key body id).trace h s = before ++ [last] ∧ (∀ x ∈ before, IsPart x.1) ∧
      (last.1 = .abortMultipartUpload c.bucketName (backendKey key) id ∨ ∃ parts, ∃ answer : Except SdkError (Option String),
        last = ⟨.completeMultipartUpload c.bucketName (backendKey key) id parts, answer⟩ ∧
        ((∃ r, ((c.finishUpload key body id).run h s).1 = .ok r) ↔ ∃ etag, answer = .ok (some etag) ∧ etag ≠ "")) := by
  let upload := c.multipartUploadParts key id body c.partSize c.partSize_pos
  cases hupload : upload.run h s with
  | mk result s' =>
    have hattempt : upload.attempt.run h s = (.ok result, s') := by rw [run_attempt, hupload]
    have hparts : ∀ x ∈ upload.attempt.trace h s, IsPart x.1 := fun x hx =>
      (attempt_only (uploadPartsFrom_only c key id body c.partSize_pos 0 1)).of_mem_trace hx
    have hrun : (c.finishUpload key body id).run h s = (c.concludeUpload key id result).run h s' := run_bind_ok h hattempt
    have htrace : (c.finishUpload key body id).trace h s =
        upload.attempt.trace h s ++ (c.concludeUpload key id result).trace h s' := by
      rw [finishUpload, trace_bind, hattempt]
    rw [hrun, htrace]
    cases result with
    | error e =>
      obtain ⟨answer, habort, -⟩ := c.abort_fails (α := PutObjectResult) (h := h) key id e s'
      exact ⟨_, _, congrArg _ habort, hparts, .inl rfl⟩
    | ok parts =>
      rcases checkParts_cases c key id parts with hpass | ⟨y, hcheck⟩
      · let e : BackendRequest := .completeMultipartUpload c.bucketName (backendKey key) id parts
        simp only [concludeUpload, hpass, ret_bind, completeMultipart, bind_eq, Prog.bind_assoc]
        cases hanswer : (h e s').1 with
        | error x =>
          rw [(send_bind_error hanswer).1, (send_bind_error hanswer).2]
          exact ⟨_, _, rfl, hparts, .inr ⟨parts, .error x, rfl, by simp⟩⟩
        | ok resp =>
          rw [(send_bind_ok hanswer).1, (send_bind_ok hanswer).2]
          refine ⟨_, ⟨e, .ok resp⟩, congrArg _ ?_, hparts, .inr ⟨parts, .ok resp, rfl, ?_⟩⟩
          · simp only [pure_eq, ret_bind]
            split <;> rfl
          · rcases resp with _ | etag
            · simp [pure_eq, ret_bind]
            · by_cases hetag : etag = "" <;> simp [pure_eq, ret_bind, hetag]
      · obtain ⟨answer, habort, -⟩ := c.abort_fails (α := PutObjectResult) (h := h) key id y s'
        refine ⟨_, ⟨.abortMultipartUpload c.bucketName (backendKey key) id, answer⟩, congrArg _ ?_, hparts, .inl rfl⟩
        simpa only [concludeUpload, bind_eq, hcheck, Prog.bind_assoc, fail_bind] using habort

end Requests

theorem create_answer_eq {bucket key bucket' key' : String} {a a' : Except SdkError (Option String)}
    (h : (⟨.createMultipartUpload bucket key, a⟩ : (e : BackendRequest) × e.Answer) =
      ⟨.createMultipartUpload bucket' key', a'⟩) : a = a' := by
  cases h
  rfl

/-- If `put_object` fails after it has been given an upload id, it has asked to abort that upload exactly if the completion, if
it was reached, was answered with an etag. -/
theorem failed_upload_aborted {S : Type} (h : (e : BackendRequest) → S → e.Answer × S) (s : S) (c : BackendClient)
    (key : String) (body : Bytes) (contentType : Option String) (metadata : List (String × String)) {id : String}
    {x : BackendError} (hid : Obtained ((c.putObject key body contentType metadata).trace h s) id)
    (herr : ((c.putObject key body contentType metadata).run h s).1 = .error x) :
    AbortSent ((c.putObject key body contentType metadata).trace h s) id ↔
      Acknowledged ((c.putObject key body contentType metadata).trace h s) := by
  obtain ⟨bucket, bkey, resp, hcreate, rfl⟩ := hid
  unfold putObject at hcreate herr ⊢
  split at hcreate
  case isFalse hsingle =>
    have hput : (c.putObject key body contentType metadata).Only fun e => ∀ bucket key, e ≠ .createMultipartUpload bucket key := by
      rw [putObject, if_neg hsingle]
      refine Only.bind ⟨by simp, fun r => ?_⟩ fun _ => trivial
      cases r <;> trivial
    rw [putObject, if_neg hsingle] at hput
    exact absurd rfl (hput.of_mem_trace hcreate _ _)
  case isTrue hmulti =>
    rw [if_pos hmulti] at herr ⊢
    rw [putObjectMultipart_eq] at hcreate herr ⊢
    let e : BackendRequest := .createMultipartUpload c.bucketName (backendKey key)
    cases hanswer : (h e s).1 with
    | error y =>
      rw [(send_bind_error hanswer).2] at hcreate
      cases create_answer_eq (List.mem_singleton.1 hcreate)
    | ok resp' =>
      rw [(send_bind_ok hanswer).1] at herr
      rw [(send_bind_ok hanswer).2] at hcreate ⊢
      obtain ⟨before, last, htrace, hbefore, hlast⟩ := c.finishUpload_trace (h := h) key (Option.getD resp' "") body (h e s).2
      rw [htrace] at hcreate ⊢
      have hresp : resp = resp' := by
        rcases List.mem_cons.1 hcreate with heq | hmem
        · exact Except.ok.inj (create_answer_eq heq)
        · exfalso
          rcases List.mem_append.1 hmem with hmem | hmem
          · exact hbefore _ hmem
          · have hfst := congrArg Sigma.fst (List.mem_singleton.1 hmem)
            rcases hlast with habort | ⟨parts, answer, rfl, -⟩
            · cases hfst.trans habort
            · cases hfst
      subst hresp
      rcases hlast with habort | ⟨parts, answer, rfl, hok⟩
      · refine iff_of_true ⟨c.bucketName, backendKey key, by simp [habort]⟩ fun bucket key id parts answer hmem => ?_
        rcases List.mem_cons.1 hmem with heq | hmem
        · cases congrArg Sigma.fst heq
        rcases List.mem_append.1 hmem with hmem | hmem
        · exact (hbefore _ hmem).elim
        · cases (congrArg Sigma.fst (List.mem_singleton.1 hmem)).trans habort
      · refine iff_of_false ?_ fun hack => ?_
        · rintro ⟨bucket, key, hmem⟩
          obtain ⟨x, hx, hfst⟩ := List.mem_map.1 hmem
          rcases List.mem_cons.1 hx with rfl | hx
          · cases hfst
          rcases List.mem_append.1 hx with hx | hx
          · have hpart := hbefore x hx
            rw [hfst] at hpart
            exact hpart
          · rw [List.mem_singleton.1 hx] at hfst
            cases hfst
        · obtain ⟨r, hr⟩ := hok.2 (hack _ _ _ _ answer (List.mem_cons_of_mem _ (List.mem_append_right _ (List.mem_singleton_self _))))
          cases hr.symm.trans herr

theorem multipartUploadParts_one (c : BackendClient) (key id : String) (hsize : 0 < size) (hbody : 0 < body.length)
    (hle : body.length ≤ size) : c.multipartUploadParts key id body size hsize =
      (c.uploadPart key id 1 body).bind fun etag => .ret [(1, etag)] := by
  rw [multipartUploadParts, uploadPartsFrom, dif_pos hbody]
  simp only [Nat.zero_add, min_eq_right hle, List.take_length, List.drop_zero, bind_eq]
  congr 1
  funext etag
  rw [uploadPartsFrom, dif_neg (lt_irrefl _)]
  rfl

/-- A backend that creates uploads under the id `u`, and answers parts and completions as given. -/
def scripted (part complete : Except SdkError (Option String)) : (e : BackendRequest) → Unit → e.Answer × Unit
  | .putObject .., _ => (.ok (none, none), ())
  | .createMultipartUpload .., _ => (.ok (some "u"), ())
  | .uploadPart .., _ => (part, ())
  | .completeMultipartUpload .., _ => (complete, ())
  | .abortMultipartUpload .., _ => (.ok (), ())

def always : BackendClient := ⟨"b", 1, 0⟩

theorem always_putObject (ct : Option String) (md : List (String × String)) : always.putObject "k" [1] ct md =
    (send (.createMultipartUpload "b" "k")).bind fun resp => always.finishUpload "k" [1] (Option.getD resp "") := by
  rw [putObject, if_pos (by decide), putObjectMultipart_eq]
  rfl

theorem always_finishUpload (id : String) : always.finishUpload "k" [1] id =
    ((always.uploadPart "k" id 1 [1]).bind fun etag => .ret [(1, etag)]).attempt.bind (always.concludeUpload "k" id) := by
  rw [finishUpload, multipartUploadParts_one _ _ _ _ (by decide) (by decide)]

/-- A part that is refused. -/
theorem failed_upload_aborted_part :
    AbortSent ((always.putObject "k" [1] none []).trace (scripted (.error ⟨none, "timeout"⟩) (.ok (some "e"))) ()) "u" := by
  have htrace : (always.putObject "k" [1] none []).trace (scripted (.error ⟨none, "timeout"⟩) (.ok (some "e"))) () =
      [⟨.createMultipartUpload "b" "k", .ok (some "u")⟩, ⟨.uploadPart "b" "k" "u" 1 [1], .error ⟨none, "timeout"⟩⟩,
        ⟨.abortMultipartUpload "b" "k" "u", .ok ()⟩] := by
    rw [always_putObject]
    simp only [always_finishUpload]
    rfl
  refine (failed_upload_aborted _ _ always "k" [1] none [] (x := .unreachable "timeout") ?_ ?_).2 ?_
  · rw [htrace]
    exact ⟨"b", "k", some "u", List.mem_cons_self .., rfl⟩
  · rw [always_putObject]
    simp only [always_finishUpload]
    rfl
  · rw [htrace]
    intro bucket key id parts answer hmem
    simp only [List.mem_cons, List.not_mem_nil, or_false] at hmem
    rcases hmem with hmem | hmem | hmem <;> cases congrArg Sigma.fst hmem

/-- A completion that is refused leaves the upload behind. -/
theorem completion_not_aborted :
    Obtained ((always.putObject "k" [1] none []).trace (scripted (.ok (some "e")) (.error ⟨none, "timeout"⟩)) ()) "u" ∧
    ((always.putObject "k" [1] none []).run (scripted (.ok (some "e")) (.error ⟨none, "timeout"⟩)) ()).1 =
      .error (.unreachable "timeout") ∧
    ¬ AbortSent ((always.putObject "k" [1] none []).trace (scripted (.ok (some "e")) (.error ⟨none, "timeout"⟩)) ()) "u" := by
  have htrace : (always.putObject "k" [1] none []).trace (scripted (.ok (some "e")) (.error ⟨none, "timeout"⟩)) () =
      [⟨.createMultipartUpload "b" "k", .ok (some "u")⟩, ⟨.uploadPart "b" "k" "u" 1 [1], .ok (some "e")⟩,
        ⟨.completeMultipartUpload "b" "k" "u" [(1, "e")], .error ⟨none, "timeout"⟩⟩] := by
    rw [always_putObject]
    simp only [always_finishUpload]
    rfl
  refine ⟨?_, ?_, ?_⟩
  · rw [htrace]
    exact ⟨"b", "k", some "u", List.mem_cons_self .., rfl⟩
  · rw [always_putObject]
    simp only [always_finishUpload]
    rfl
  · rw [htrace]
    rintro ⟨bucket, key, hmem⟩
    simp at hmem

/-! ## The parts of a body -/

/-- The chunks make up the body: all but the last have the full size, and the last has some of it. -/
structure Partition (size : Nat) (body : Bytes) (chunks : List Bytes) : Prop where
  joins : chunks.flatten = body
  full : ∀ chunk ∈ chunks.dropLast, chunk.length = size
  last : ∀ chunk ∈ chunks.getLast?, 0 < chunk.length ∧ chunk.length ≤ size

theorem take_drop_append_drop {offset stop : Nat} (hle : offset ≤ stop) :
    body.drop offset = (body.take stop).drop offset ++ body.drop stop := by
  rcases Nat.le_total stop body.length with hstop | hstop
  · have hlen : offset ≤ (body.take stop).length := by
      rw [List.length_take, min_eq_left hstop]
      exact hle
    rw [← List.drop_append_of_le_length hlen, List.take_append_drop]
  · rw [List.take_of_length_le hstop, List.drop_eq_nil_of_le hstop, List.append_nil]

theorem Partition.ne_nil (h : Partition size body chunks) (hne : chunks ≠ []) : body ≠ [] := by
  have hmem : chunks.getLast hne ∈ chunks := List.getLast_mem hne
  have hpos : 0 < (chunks.getLast hne).length := (h.last _ (List.getLast?_eq_some_getLast hne)).1
  intro hbody
  have hnil := List.flatten_eq_nil_iff.1 (h.joins.trans hbody) _ hmem
  simp [hnil] at hpos

theorem Partition.cons {rest chunk : Bytes} (h : Partition size rest chunks) (hpos : 0 < chunk.length)
    (hle : chunk.length ≤ size) (hfull : rest ≠ [] → chunk.length = size) :
    Partition size (chunk ++ rest) (chunk :: chunks) := by
  refine ⟨by rw [List.flatten_cons, h.joins], ?_, ?_⟩
  · cases chunks with
    | nil => simp
    | cons next chunks =>
      intro x hx
      rw [List.dropLast_cons_of_ne_nil (by simp)] at hx
      rcases List.mem_cons.1 hx with rfl | hx
      · exact hfull (h.ne_nil (by simp))
      · exact h.full x hx
  · cases chunks with
    | nil => simpa using ⟨hpos, hle⟩
    | cons next chunks => exact fun x hx => h.last x (by simpa using hx)

theorem Partition.length_le (h : Partition size body chunks) {n : Nat} (hn : body.length ≤ n * size) :
    chunks.length ≤ n := by
  induction chunks generalizing body n with
  | nil => exact Nat.zero_le n
  | cons chunk rest ih =>
    have hbody : body.length = chunk.length + rest.flatten.length := by
      rw [← h.joins, List.flatten_cons, List.length_append]
    cases rest with
    | nil =>
      have hpos : 0 < n := by
        refine Nat.pos_of_ne_zero fun hzero => ?_
        have hlast := (h.last chunk rfl).1
        subst hzero
        omega
      exact hpos
    | cons next rest =>
      have hfull : chunk.length = size := h.full chunk (by simp)
      have hrest : Partition size (next :: rest).flatten (next :: rest) :=
        ⟨rfl, fun x hx => h.full x (List.mem_cons_of_mem _ hx), fun x hx => h.last x (by simpa using hx)⟩
      cases n with
      | zero =>
        have hsome : 0 < chunk.length := by
          obtain ⟨x, hx⟩ := Option.isSome_iff_exists.1 (show ((next :: rest).getLast?).isSome by simp)
          obtain ⟨hpos, hle⟩ := hrest.last x hx
          omega
        omega
      | succ n =>
        rw [Nat.succ_mul] at hn
        exact Nat.succ_le_succ (ih hrest (by omega))

/-- Every part that the run has uploaded was accepted. -/
def PartsAccepted (t : List ((e : BackendRequest) × e.Answer)) : Prop :=
  ∀ bucket key id n chunk, ∀ answer : Except SdkError (Option String),
    (⟨.uploadPart bucket key id n chunk, answer⟩ : (e : BackendRequest) × e.Answer) ∈ t → ∃ etag, answer = .ok etag

/-- The requests that upload chunks under consecutive numbers. -/
def uploads (c : BackendClient) (key id : String) (chunks : List Bytes) (pn : Nat) : List BackendRequest :=
  (chunks.zipIdx pn).map fun x => .uploadPart c.bucketName (backendKey key) id x.2 x.1

theorem uploadPartsFrom_partition {S : Type} {h : (e : BackendRequest) → S → e.Answer × S} {s : S} (c : BackendClient)
    (key id : String) (body : Bytes) (hsize : 0 < size) (offset pn : Nat)
    (haccepted : PartsAccepted ((c.uploadPartsFrom key id body size hsize offset pn).trace h s)) :
    ∃ chunks parts, Partition size (body.drop offset) chunks ∧
      ((c.uploadPartsFrom key id body size hsize offset pn).trace h s).map Sigma.fst = c.uploads key id chunks pn ∧
      ((c.uploadPartsFrom key id body size hsize offset pn).run h s).1 = .ok parts ∧
      parts.map Prod.fst = List.range' pn chunks.length := by
  fun_induction c.uploadPartsFrom key id body size hsize offset pn generalizing s with
  | case1 offset pn hlt stop =>
    rename_i chunk ih
    simp only [uploadPart, bind_eq, bind_assoc] at haccepted ⊢
    let e : BackendRequest := .uploadPart c.bucketName (backendKey key) id pn chunk
    have hanswer : ∃ etag, (h e s).1 = .ok etag := haccepted _ _ _ _ _ (h e s).1 (List.mem_cons_self ..)
    obtain ⟨etag, hanswer⟩ := hanswer
    rw [(send_bind_ok hanswer).2, pure_eq, ret_bind, trace_bind] at haccepted ⊢
    rw [(send_bind_ok hanswer).1, pure_eq, ret_bind, run_bind]
    obtain ⟨chunks, parts, hchunks, hrequests, hrun, hnumbers⟩ := ih fun bucket key id n chunk answer hmem =>
      haccepted bucket key id n chunk answer (List.mem_cons_of_mem _ (List.mem_append_left _ hmem))
    cases hrest : (c.uploadPartsFrom key id body size hsize stop (pn + 1)).run h (h e s).2 with
    | mk result s' =>
    rw [hrest] at hrun
    obtain rfl : result = .ok parts := hrun
    refine ⟨chunk :: chunks, (pn, Option.getD etag "") :: parts, ?_, ?_, rfl, ?_⟩
    · have hsplit : body.drop offset = chunk ++ body.drop stop := take_drop_append_drop (by omega)
      have hstop : stop = offset + size ∨ stop = body.length := min_choice _ _
      have hsize : stop ≤ offset + size := min_le_left _ _
      have hlength : chunk.length = stop - offset := by
        rw [List.length_drop, List.length_take, min_eq_left (min_le_right _ _)]
      rw [hsplit]
      clear_value chunk stop
      refine hchunks.cons (by omega) (by omega) fun hne => ?_
      have hend : stop ≠ body.length := fun heq => hne (List.drop_eq_nil_of_le heq.ge)
      omega
    · rw [List.map_cons, List.map_append, hrequests]
      simp [uploads, List.zipIdx_cons, trace, e]
    · rw [List.map_cons, hnumbers, List.length_cons, List.range'_succ]
  | case2 offset pn hlt =>
    refine ⟨[], [], ⟨?_, ?_, ?_⟩, rfl, rfl, rfl⟩
    · rw [List.drop_eq_nil_of_le (Nat.le_of_not_lt hlt)]
      rfl
    · simp
    · simp

/-- When every part is accepted, `multipart_upload_parts` returns, and the parts uploaded under the numbers from 1 on
make up the body, each but the last of the configured size or 5 MiB, and as few as can be. -/
theorem multipart_parts_partition {S : Type} (h : (e : BackendRequest) → S → e.Answer × S) (s : S) (c : BackendClient)
    (key id : String) (body : Bytes)
    (haccepted : PartsAccepted ((c.multipartUploadParts key id body c.partSize c.partSize_pos).trace h s)) :
    ∃ chunks parts, Partition (max c.multipartPartSize (5 * 1024 * 1024)) body chunks ∧
      ((c.multipartUploadParts key id body c.partSize c.partSize_pos).trace h s).map Sigma.fst = c.uploads key id chunks 1 ∧
      ((c.multipartUploadParts key id body c.partSize c.partSize_pos).run h s).1 = .ok parts ∧
      parts.map Prod.fst = List.range' 1 chunks.length ∧
      ∀ n, body.length ≤ n * max c.multipartPartSize (5 * 1024 * 1024) → chunks.length ≤ n := by
  obtain ⟨chunks, parts, hchunks, hrequests, hrun, hnumbers⟩ :=
    uploadPartsFrom_partition c key id body c.partSize_pos 0 1 haccepted
  exact ⟨chunks, parts, hchunks, hrequests, hrun, hnumbers, fun n hn => Partition.length_le hchunks hn⟩

theorem scripted_accepts {α : Type} (etag : String) (complete : Except SdkError (Option String)) (p : BackendProg α) :
    PartsAccepted (p.trace (scripted (.ok (some etag)) complete) ()) := by
  intro bucket key id n chunk answer hmem
  induction p with
  | ret a | fail x => cases hmem
  | act e k ih =>
    rcases List.mem_cons.1 hmem with heq | hmem
    · cases heq
      exact ⟨_, rfl⟩
    · exact ih _ hmem

/-- A body of 6 MiB, in two parts. -/
theorem multipart_parts_partition_two : ∃ chunks parts,
    Partition (5 * 1024 * 1024) (List.replicate (6 * 1024 * 1024) 0) chunks ∧ chunks.length = 2 ∧
    ((always.multipartUploadParts "k" "u" (List.replicate (6 * 1024 * 1024) 0) always.partSize always.partSize_pos).run
      (scripted (.ok (some "e")) (.ok none)) ()).1 = .ok parts ∧ parts.map Prod.fst = [1, 2] := by
  have hbody : (List.replicate (6 * 1024 * 1024) (0 : UInt8)).length = 6 * 1024 * 1024 := List.length_replicate
  generalize List.replicate (6 * 1024 * 1024) (0 : UInt8) = body at hbody ⊢
  obtain ⟨chunks, parts, hchunks, -, hrun, hnumbers, hfew⟩ := multipart_parts_partition _ () always "k" "u" body
    (scripted_accepts "e" (.ok none) _)
  have hsize : max always.multipartPartSize (5 * 1024 * 1024) = 5 * 1024 * 1024 := rfl
  rw [hsize] at hchunks hfew
  have hjoins := congrArg List.length hchunks.joins
  have hlast := hchunks.last
  have hle := hfew 2 (by omega)
  have hlength : chunks.length = 2 := by
    rcases chunks with _ | ⟨a, _ | ⟨b, rest⟩⟩
    · rw [hbody] at hjoins
      cases hjoins
    · have ha := (hlast a rfl).2
      simp only [List.flatten_cons, List.flatten_nil, List.append_nil] at hjoins
      omega
    · simp only [List.length_cons] at hle ⊢
      omega
  rw [hlength] at hnumbers
  exact ⟨chunks, parts, hchunks, hlength, hrun, hnumbers⟩

end BackendClient

/-! ## Stored objects -/

/-- An object as the store has it. -/
structure StoredObject where
  bytes : Bytes
  contentType : Option String
  metadata : List (String × String)
  deriving DecidableEq, Repr

/-- An upload that is under way: what its creation carried, and its parts by number. -/
structure PendingUpload where
  contentType : Option String
  metadata : List (String × String)
  part : Nat → Option Bytes

/-- The bytes of the parts with these numbers, by part number. -/
def PendingUpload.bytes (u : PendingUpload) (numbers : List Nat) : Bytes :=
  (numbers.insertionSort (· ≤ ·)).flatMap fun n => (u.part n).getD []

/-- An object store over the states `S`: it stores what each request carries, and a completed upload is the
concatenation of the named parts by part number. The creation of an upload carries no content type and no metadata. A
refused request may do anything. -/
structure ObjectStore (S : Type) where
  handle : (e : BackendRequest) → S → e.Answer × S
  object : S → String → String → Option StoredObject
  upload : S → String → Option PendingUpload
  put_ok : ∀ {bucket key body ct md s resp}, (handle (.putObject bucket key body ct md) s).1 = .ok resp →
    object (handle (.putObject bucket key body ct md) s).2 bucket key = some ⟨body, ct, md⟩
  create_ok : ∀ {bucket key s} {resp : Option String}, (handle (.createMultipartUpload bucket key) s).1 = .ok resp →
    ∃ id, resp = some id ∧ upload (handle (.createMultipartUpload bucket key) s).2 id = some ⟨none, [], fun _ => none⟩
  part_ok : ∀ {bucket key id n body s} {resp : Option String}, (handle (.uploadPart bucket key id n body) s).1 = .ok resp →
    ∀ {u}, upload s id = some u → upload (handle (.uploadPart bucket key id n body) s).2 id =
      some { u with part := Function.update u.part n (some body) }
  complete_ok : ∀ {bucket key id parts s} {resp : Option String},
    (handle (.completeMultipartUpload bucket key id parts) s).1 = .ok resp → ∀ {u}, upload s id = some u →
      object (handle (.completeMultipartUpload bucket key id parts) s).2 bucket key =
        some ⟨u.bytes (parts.map Prod.fst), u.contentType, u.metadata⟩

namespace ObjectStore

open BackendClient

variable {S : Type} (o : ObjectStore S) {c : BackendClient} {s s' : S} {key id : String} {body : Bytes}

/-- The parts from a number on are uploaded in order, and hold what is left of the body. -/
structure PartsFrom (u u' : PendingUpload) (rest : Bytes) (pn : Nat) (parts : List (Nat × String)) : Prop where
  numbers : parts.map Prod.fst = List.range' pn parts.length
  bytes : (parts.map Prod.fst).flatMap (fun n => (u'.part n).getD []) = rest
  before : ∀ n < pn, u'.part n = u.part n
  contentType : u'.contentType = u.contentType
  metadata : u'.metadata = u.metadata

theorem PartsFrom.cons {u u' : PendingUpload} {chunk rest : Bytes} {pn : Nat} {etag : String}
    (h : PartsFrom { u with part := Function.update u.part pn (some chunk) } u' rest (pn + 1) parts) :
    PartsFrom u u' (chunk ++ rest) pn ((pn, etag) :: parts) where
  numbers := by rw [List.map_cons, h.numbers, List.length_cons, List.range'_succ]
  bytes := by
    have hpart : u'.part pn = some chunk := (h.before pn (Nat.lt_succ_self pn)).trans (Function.update_self ..)
    rw [List.map_cons, List.flatMap_cons, h.bytes, hpart, Option.getD_some]
  before := fun n hn => (h.before n (by omega)).trans (Function.update_of_ne (Nat.ne_of_lt hn) ..)
  contentType := h.contentType
  metadata := h.metadata

theorem uploadPartsFrom_parts (hsize : 0 < size) {offset pn : Nat} {u : PendingUpload} (hu : o.upload s id = some u)
    (hrun : (c.uploadPartsFrom key id body size hsize offset pn).run o.handle s = (.ok parts, s')) :
    ∃ u', o.upload s' id = some u' ∧ PartsFrom u u' (body.drop offset) pn parts := by
  fun_induction c.uploadPartsFrom key id body size hsize offset pn generalizing s u parts with
  | case1 offset pn hlt stop =>
    rename_i chunk ih
    have hsplit : body.drop offset = chunk ++ body.drop stop := take_drop_append_drop (by omega)
    simp only [uploadPart, bind_eq, bind_assoc] at hrun
    let e : BackendRequest := .uploadPart c.bucketName (backendKey key) id pn chunk
    cases hanswer : (o.handle e s).1 with
    | error x =>
      rw [(send_bind_error hanswer).1] at hrun
      cases hrun
    | ok resp =>
      rw [(send_bind_ok hanswer).1, pure_eq, ret_bind, run_bind] at hrun
      split at hrun
      case h_2 => cases hrun
      case h_1 parts' s₂ hrest =>
        obtain ⟨hparts, rfl⟩ := Prod.mk.inj hrun
        cases hparts
        obtain ⟨u', hu', hfrom⟩ := ih (o.part_ok hanswer hu) hrest
        exact ⟨u', hu', hsplit ▸ hfrom.cons⟩
  | case2 offset pn hlt =>
    obtain ⟨hparts, rfl⟩ := Prod.mk.inj hrun
    cases hparts
    exact ⟨u, hu, rfl, (List.drop_eq_nil_of_le (Nat.le_of_not_lt hlt)).symm, fun _ _ => rfl, rfl, rfl⟩

theorem PartsFrom.upload_bytes {u u' : PendingUpload} {rest : Bytes} {pn : Nat} (h : PartsFrom u u' rest pn parts) :
    u'.bytes (parts.map Prod.fst) = rest := by
  have hsorted : ((parts.map Prod.fst).insertionSort (· ≤ ·)) = parts.map Prod.fst := by
    refine List.Pairwise.insertionSort_eq ?_
    rw [h.numbers]
    exact (List.pairwise_lt_range' 1).imp Nat.le_of_lt
  rw [PendingUpload.bytes, hsorted, h.bytes]

theorem finishUpload_stores {u : PendingUpload} {r : PutObjectResult} (hu : o.upload s id = some u)
    (hrun : (c.finishUpload key body id).run o.handle s = (.ok r, s')) :
    o.object s' c.bucket key = some ⟨body, u.contentType, u.metadata⟩ := by
  let upload := c.multipartUploadParts key id body c.partSize c.partSize_pos
  cases hupload : upload.run o.handle s with
  | mk result s₁ =>
    have hattempt : upload.attempt.run o.handle s = (.ok result, s₁) := by rw [run_attempt, hupload]
    rw [finishUpload, run_bind_ok o.handle hattempt] at hrun
    cases result with
    | error e =>
      have hfail : ((c.concludeUpload key id (.error e)).run o.handle s₁).1 = .error e := by
        simp only [concludeUpload, bind_eq, run_bind, run_attempt, run_fail]
      rw [hrun] at hfail
      cases hfail
    | ok parts =>
      obtain ⟨u', hu', hparts⟩ := o.uploadPartsFrom_parts c.partSize_pos hu hupload
      rcases checkParts_cases c key id parts with hpass | ⟨x, habort⟩
      · simp only [concludeUpload, hpass, ret_bind, completeMultipart, bind_eq, bind_assoc] at hrun
        let e : BackendRequest := .completeMultipartUpload c.bucketName (backendKey key) id parts
        cases hanswer : (o.handle e s₁).1 with
        | error x =>
          rw [(send_bind_error hanswer).1] at hrun
          cases hrun
        | ok resp =>
          rw [(send_bind_ok hanswer).1, pure_eq, ret_bind] at hrun
          have hstored := o.complete_ok hanswer hu'
          rw [hparts.upload_bytes, hparts.contentType, hparts.metadata, List.drop_zero] at hstored
          split at hrun
          · cases hrun
          · obtain ⟨-, rfl⟩ := Prod.mk.inj hrun
            exact hstored
      · have hfail : ((c.concludeUpload key id (.ok parts)).run o.handle s₁).1 = .error x := by
          simp only [concludeUpload, bind_eq, habort, bind_assoc, run_bind, run_attempt, fail_bind, run_fail]
        rw [hrun] at hfail
        cases hfail

/-- When `put_object` returns, the stored object has the given bytes, content type and metadata exactly if the body is stored by
one request or there are no content type and no metadata. -/
theorem putObject_stores {S : Type} (o : ObjectStore S) (c : BackendClient) (key : String) (body : Bytes)
    (contentType : Option String) (metadata : List (String × String)) {s s' : S} {r : PutObjectResult}
    (hput : (c.putObject key body contentType metadata).run o.handle s = (.ok r, s')) :
    o.object s' c.bucket key = some ⟨body, contentType, metadata⟩ ↔
      (c.Multipart body → contentType = none ∧ metadata = []) := by
  unfold putObject at hput
  split at hput
  case isTrue hmulti =>
    rw [putObjectMultipart_eq] at hput
    let e : BackendRequest := .createMultipartUpload c.bucketName (backendKey key)
    cases hanswer : (o.handle e s).1 with
    | error x =>
      rw [(send_bind_error hanswer).1] at hput
      cases hput
    | ok resp =>
      obtain ⟨id, rfl, hu⟩ := o.create_ok hanswer
      rw [(send_bind_ok hanswer).1] at hput
      rw [o.finishUpload_stores hu hput]
      simp [hmulti, eq_comm]
  case isFalse hsingle =>
    let e : BackendRequest := .putObject c.bucket key body contentType metadata
    change ((send e).bind _).run o.handle s = _ at hput
    cases hanswer : (o.handle e s).1 with
    | error x =>
      rw [(send_bind_error hanswer).1] at hput
      cases hput
    | ok resp =>
      rw [(send_bind_ok hanswer).1] at hput
      obtain ⟨-, rfl⟩ := Prod.mk.inj hput
      exact iff_of_true (o.put_ok hanswer) fun hmulti => absurd hmulti hsingle

/-- A store that accepts every request it has the upload for. -/
structure MemState where
  objects : String × String → Option StoredObject
  uploads : String → Option PendingUpload

def MemState.handle : (e : BackendRequest) → MemState → e.Answer × MemState
  | .putObject bucket key body ct md, s =>
    (.ok (some "e", none), { s with objects := Function.update s.objects (bucket, key) (some ⟨body, ct, md⟩) })
  | .createMultipartUpload _ _, s =>
    (.ok (some "u"), { s with uploads := Function.update s.uploads "u" (some ⟨none, [], fun _ => none⟩) })
  | .uploadPart _ _ id n body, s =>
    match s.uploads id with
    | none => (.error ⟨some "NoSuchUpload", ""⟩, s)
    | some u =>
      let u' : PendingUpload := { u with part := Function.update u.part n (some body) }
      (.ok (some "e"), { s with uploads := Function.update s.uploads id (some u') })
  | .completeMultipartUpload bucket key id parts, s =>
    match s.uploads id with
    | none => (.error ⟨some "NoSuchUpload", ""⟩, s)
    | some u =>
      let stored : StoredObject := ⟨u.bytes (parts.map Prod.fst), u.contentType, u.metadata⟩
      (.ok (some "e"), { s with objects := Function.update s.objects (bucket, key) (some stored) })
  | .abortMultipartUpload _ _ id, s => (.ok (), { s with uploads := Function.update s.uploads id none })

def mem : ObjectStore MemState where
  handle := MemState.handle
  object s bucket key := s.objects (bucket, key)
  upload s id := s.uploads id
  put_ok _ := Function.update_self ..
  create_ok {_ _ s _} h := ⟨"u", (Except.ok.inj h).symm, Function.update_self "u" _ s.uploads⟩
  part_ok h u hu := by
    simp only [MemState.handle, hu, Function.update_self]
  complete_ok h u hu := by
    simp only [MemState.handle, hu, Function.update_self]

def empty : MemState := ⟨fun _ => none, fun _ => none⟩

/-- A body in one part, without a content type and metadata. -/
theorem putObject_stores_part : ∃ s', (always.putObject "k" [1] none []).run mem.handle empty = (.ok ⟨"e", none⟩, s') ∧
    mem.object s' "b" "k" = some ⟨[1], none, []⟩ := by
  have hput : ((always.putObject "k" [1] none []).run mem.handle empty).1 = .ok ⟨"e", none⟩ := by
    rw [always_putObject]
    simp only [always_finishUpload]
    rfl
  exact ⟨_, Prod.ext hput rfl, (putObject_stores mem always "k" [1] none [] (Prod.ext hput rfl)).2 fun _ => ⟨rfl, rfl⟩⟩

/-- A chunk stored in parts loses its content type and its metadata. -/
theorem multipart_loses_metadata : ∃ s',
    (always.putObject "k" [1] (some "zstd") [("x-amz-meta-xtable-format", "chunk_v1")]).run mem.handle empty =
      (.ok ⟨"e", none⟩, s') ∧ mem.object s' "b" "k" = some ⟨[1], none, []⟩ := by
  refine ⟨_, Prod.ext ?_ rfl, ?_⟩
  all_goals
    rw [always_putObject]
    simp only [always_finishUpload]
    rfl

end ObjectStore

end Xtable
