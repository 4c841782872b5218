import Xtable.Lib.Prog
import Xtable.Core

/-! The object store's client, a program over the requests it sends. `put_object` sends one request, or splits a
    large body over a multipart upload. An answer is a failure, or the fields of the response that the client reads.
    -/

namespace Xtable

/-- What the client fails with. -/
inductive BackendError where
  | sdk (msg : String)
  | notFound (msg : String)
  | invalidArgument (msg : String)
  | unreachable (msg : String)
  | upload (msg : String)
  | internal (msg : String)
  deriving DecidableEq, Repr

/-- An error of the SDK: the service's own error, if there is one, and the whole error, as they are printed. -/
structure SdkError where
  service : Option String
  debug : String
  deriving DecidableEq, Repr

/-- `map_sdk_err`: the printed error tells what is not found from other errors of the service. -/
def BackendError.fromSdk (e : SdkError) : BackendError :=
  match e.service with
  | some dbg =>
    if "notfound".toList <:+: dbg.toLower.toList ∨ "no such".toList <:+: dbg.toLower.toList then .notFound dbg
    else .sdk dbg
  | none => .unreachable e.debug

/-- The requests that storing an object sends. -/
inductive BackendRequest where
  | putObject (bucket key : String) (body : Bytes) (contentType : Option String) (metadata : List (String × String))
  | createMultipartUpload (bucket key : String)
  | uploadPart (bucket key uploadId : String) (partNumber : Nat) (body : Bytes)
  | completeMultipartUpload (bucket key uploadId : String) (parts : List (Nat × String))
  | abortMultipartUpload (bucket key uploadId : String)
  deriving DecidableEq, Repr

/-- What the client reads of a response: an etag and a version id, an upload id, an etag, an etag, nothing. -/
abbrev BackendRequest.Response : BackendRequest → Type
  | putObject .. => Option String × Option String
  | createMultipartUpload .. => Option String
  | uploadPart .. => Option String
  | completeMultipartUpload .. => Option String
  | abortMultipartUpload .. => Unit

/-- What `send().await` gives. -/
abbrev BackendRequest.Answer (e : BackendRequest) : Type := Except SdkError e.Response

/-- A method of the client. -/
abbrev BackendProg (α : Type) : Type := Prog BackendRequest.Answer BackendError α

/-- `.send().await.map_err(map_sdk_err)?`. -/
def send (e : BackendRequest) : BackendProg e.Response :=
  .act e fun
    | .ok resp => .ret resp
    | .error x => .fail (.fromSdk x)

/-- What storing an object returns. -/
structure PutObjectResult where
  etag : String
  versionId : Option String
  deriving DecidableEq, Repr

/-- A client over the identity key map of one bucket. -/
structure BackendClient where
  bucket : String
  multipartThreshold : Nat
  multipartPartSize : Nat
  deriving Repr

namespace BackendClient

variable (c : BackendClient)

/-- The identity key map has one bucket for all keys. -/
def bucketFor (_key : String) : String := c.bucket

/-- And leaves the keys as they are. -/
def backendKey (key : String) : String := key

/-- The bucket of multipart requests and listings, by way of a probe key. -/
def bucketName : String := c.bucketFor "__probe__"

/-- Start an upload; a missing upload id becomes the empty one. -/
def createMultipart (key : String) : BackendProg String := do
  let resp ← send (.createMultipartUpload c.bucketName (backendKey key))
  return resp.getD ""

/-- Send one part; a missing etag becomes the empty one. -/
def uploadPart (key uploadId : String) (partNumber : Nat) (body : Bytes) : BackendProg String := do
  let resp ← send (.uploadPart c.bucketName (backendKey key) uploadId partNumber body)
  return resp.getD ""

/-- Put the parts together; a missing etag becomes the empty one. -/
def completeMultipart (key uploadId : String) (parts : List (Nat × String)) : BackendProg String := do
  let resp ← send (.completeMultipartUpload c.bucketName (backendKey key) uploadId parts)
  return resp.getD ""

/-- Give an upload up. -/
def abortMultipart (key uploadId : String) : BackendProg Unit := do
  let _ ← send (.abortMultipartUpload c.bucketName (backendKey key) uploadId)
  return ()

/-- The loop of `multipart_upload_parts` from `offset` on. A part size of zero would never move it; the caller's is at
least 5 MiB. -/
def uploadPartsFrom (key uploadId : String) (body : Bytes) (partSize : Nat) (hsize : 0 < partSize)
    (offset partNumber : Nat) : BackendProg (List (Nat × String)) :=
  if _h : offset < body.length then do
    let stop := min (offset + partSize) body.length
    let chunk := (body.take stop).drop offset
    let etag ← c.uploadPart key uploadId partNumber chunk
    let parts ← uploadPartsFrom key uploadId body partSize hsize stop (partNumber + 1)
    return (partNumber, etag) :: parts
  else return []
termination_by body.length - offset

/-- Parts are numbered from 1. -/
def multipartUploadParts (key uploadId : String) (body : Bytes) (partSize : Nat) (hsize : 0 < partSize) :
    BackendProg (List (Nat × String)) :=
  c.uploadPartsFrom key uploadId body partSize hsize 0 1

/-- The check of the parts' etags: the first part without one aborts the upload. -/
def checkParts (key uploadId : String) : List (Nat × String) → BackendProg Unit
  | [] => return ()
  | (pn, etag) :: parts =>
    if etag = "" then do
      let _ ← (c.abortMultipart key uploadId).attempt
      .fail (.internal ("multipart part " ++ toString pn ++ " returned empty etag"))
    else checkParts key uploadId parts

/-- `self.multipart_part_size().max(5 * 1024 * 1024)`. -/
def partSize : Nat := max c.multipartPartSize (5 * 1024 * 1024)

theorem partSize_pos : 0 < c.partSize := by
  unfold partSize
  omega

/-- A part that fails aborts the upload, and a completion that fails does not. The content type and the metadata are
dropped. -/
def putObjectMultipart (key : String) (body : Bytes) (_contentType : Option String)
    (_metadata : List (String × String)) : BackendProg PutObjectResult := do
  let uploadId ← c.createMultipart key
  let result ← (c.multipartUploadParts key uploadId body c.partSize c.partSize_pos).attempt
  match result with
  | .error e => do
    let _ ← (c.abortMultipart key uploadId).attempt
    .fail e
  | .ok parts => do
    c.checkParts key uploadId parts
    let compositeEtag ← c.completeMultipart key uploadId parts
    if compositeEtag = "" then .fail (.internal "complete_multipart returned empty etag")
    else return { etag := compositeEtag, versionId := none }

/-- The body is stored in parts. -/
def Multipart (body : Bytes) : Prop := c.multipartThreshold ≤ body.length ∧ 0 < c.multipartThreshold

instance (body : Bytes) : Decidable (c.Multipart body) := inferInstanceAs (Decidable (_ ∧ _))

/-- `put_object`; only the single request carries the content type and the metadata. -/
def putObject (key : String) (body : Bytes) (contentType : Option String) (metadata : List (String × String)) :
    BackendProg PutObjectResult :=
  if c.Multipart body then c.putObjectMultipart key body contentType metadata
  else do
    let resp ← send (.putObject (c.bucketFor key) (backendKey key) body contentType metadata)
    return { etag := resp.1.getD "", versionId := resp.2 }

end BackendClient

/-! ## Listing -/

/-- One object of a bucket listing. -/
structure ListedObject where
  key : String
  size : Nat
  etag : String
  deriving DecidableEq

/-- What the client reads of an object in a page of `list_objects_v2`. -/
structure S3Object where
  key : Option String
  size : Option Int
  eTag : Option String
  deriving DecidableEq, Repr

/-- An object of a page as the client lists it; `as u64` wraps a negative size. -/
def ListedObject.of (obj : S3Object) : ListedObject :=
  ⟨obj.key.getD "", (obj.size.getD 0 % 2 ^ 64).toNat, obj.eTag.getD ""⟩

namespace BackendClient

variable (c : BackendClient) (answer : String → Option String → Except SdkError ListPage)

end BackendClient

end Xtable
