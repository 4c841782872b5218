import Xtable.Schema.Validation

/-! Token verification. A request of the HTTP API carries a JWT signed with HS256; the checks return the first
    failure. Base64, the JSON parser and the MAC are parameters. -/

namespace Xtable

/-- The policy of the API. -/
structure EdgeAuth where
  jwtSecret : Bytes
  jwtIssuer : Option String
  jwtAudience : Option String
  allowAnonymousRead : Bool

/-- The `Authorization` values of a request, in their order. -/
structure AuthRequest where
  authorization : List Bytes

/-- What verification takes from elsewhere: base64url without padding, `serde_json`, and HMAC-SHA256, which takes or
refuses a key and then compares the code of a message with a signature. -/
structure TokenCodecs where
  base64Decode : List Char → Option Bytes
  fromSlice : Bytes → Option Value
  mac : Bytes → Option (Bytes → Bytes → Bool)

/-- `Value::as_i64`. -/
def Number.asI64 : Number → Option Int
  | posInt n => if n < 2 ^ 63 then some n else none
  | negInt n => some n
  | float _ => none

def Value.asI64 : Value → Option Int
  | number n => n.asI64
  | _ => none

/-- `HeaderValue::to_str`: visible ASCII, spaces and tabs. -/
def headerText (value : Bytes) : Option (List Char) :=
  if value.all fun b => (32 ≤ b && b < 127) || b = 9 then some (value.map fun b => Char.ofNat b.toNat) else none

/-- `str::trim`, for the text of a header. -/
def trim (text : List Char) : List Char := (text.dropWhile Char.isWhitespace).rdropWhile Char.isWhitespace

def unauthorized {α : Type} (msg : String) : Except XtableError α := .error (.unauthorized msg)

/-- `ok_or_else`, with the text of the error. -/
def orUnauthorized {α : Type} (x : Option α) (msg : String) : Except XtableError α :=
  match x with
  | some a => .ok a
  | none => unauthorized msg

def isAnonymous (req : AuthRequest) : Bool := req.authorization.isEmpty

/-- The checks of the claims, at the time `now` in seconds. -/
def verifyClaims (auth : EdgeAuth) (now : Int) (claims : Value) : Except XtableError Unit := do
  let exp ← orUnauthorized ((claims.get "exp").bind Value.asI64) "JWT exp claim is required"
  if exp ≤ now then unauthorized "JWT has expired"
  else if ((claims.get "nbf").bind Value.asI64).any fun nbf => now < nbf then unauthorized "JWT is not yet valid"
  else if auth.jwtIssuer.any fun issuer => (claims.get "iss").bind Value.asStr ≠ some issuer then
    unauthorized "JWT issuer mismatch"
  else if auth.jwtAudience.any fun audience => !((claims.get "aud").any fun aud =>
      aud.asStr = some audience || aud.asArray.any fun values => values.any fun v => v.asStr = some audience) then
    unauthorized "JWT audience mismatch"
  else .ok ()

def verifyJwt (c : TokenCodecs) (auth : EdgeAuth) (now : Int) (token : List Char) : Except XtableError Unit :=
  let parts := token.splitOn '.'
  let headerB64 := (parts[0]?).getD []
  let payloadB64 := (parts[1]?).getD []
  let signatureB64 := (parts[2]?).getD []
  if headerB64 = [] ∨ payloadB64 = [] ∨ signatureB64 = [] ∨ (parts[3]?).isSome then unauthorized "malformed JWT"
  else do
    let header ← orUnauthorized (c.base64Decode headerB64) "malformed JWT header"
    let payload ← orUnauthorized (c.base64Decode payloadB64) "malformed JWT payload"
    let signature ← orUnauthorized (c.base64Decode signatureB64) "malformed JWT signature"
    let header ← orUnauthorized (c.fromSlice header) "malformed JWT header"
    if (header.get "alg").bind Value.asStr ≠ some "HS256" then unauthorized "JWT alg must be HS256"
    else do
      let signingInput := headerB64 ++ '.' :: payloadB64
      let mac ← orUnauthorized (c.mac auth.jwtSecret) "invalid JWT secret"
      if !mac (utf8 (String.ofList signingInput)) signature then unauthorized "JWT signature mismatch"
      else do
        let claims ← orUnauthorized (c.fromSlice payload) "malformed JWT claims"
        verifyClaims auth now claims

def verifyRequest (c : TokenCodecs) (auth : EdgeAuth) (now : Int) (req : AuthRequest) (isRead : Bool) :
    Except XtableError Unit :=
  if isRead && auth.allowAnonymousRead && isAnonymous req then .ok ()
  else do
    let header ← orUnauthorized (req.authorization.head?.bind headerText) "missing Authorization header"
    let token ← orUnauthorized ((header.dropPrefix? "Bearer ".toList).or (header.dropPrefix? "bearer ".toList))
      "Authorization must use Bearer scheme"
    verifyJwt c auth now (trim token)

end Xtable
