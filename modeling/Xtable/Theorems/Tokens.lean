import Xtable.Lib.Parser
import Xtable.Auth.Verify
import Xtable.Theorems.Validation

/-! A request that the policy does not admit as an anonymous read is accepted for a token whose parts decode, whose
    header names HS256, whose signature is the MAC of its first two parts, and whose claims are in force; and for
    one more kind: `nbf` is read as a 64-bit integer and any other number is passed over. -/

namespace Xtable

variable {auth : EdgeAuth} {c : TokenCodecs} {req : AuthRequest} {P Q : Value → Prop} {now : Int}

/-! ## What a request carries -/

/-- The first `Authorization` value is a Bearer token of three non-empty parts. -/
def AuthRequest.Carries (req : AuthRequest) (header payload signature : List Char) : Prop :=
  ∃ value text, req.authorization.head? = some value ∧
    (headerText value = some ("Bearer ".toList ++ text) ∨ headerText value = some ("bearer ".toList ++ text)) ∧
    trim text = header ++ '.' :: (payload ++ '.' :: signature) ∧
    (header ≠ [] ∧ '.' ∉ header) ∧ (payload ≠ [] ∧ '.' ∉ payload) ∧ (signature ≠ [] ∧ '.' ∉ signature)

/-- A number is later than a time in seconds, by its exact value. -/
def Number.Later (now : Int) : Number → Prop
  | posInt n => now < n
  | negInt n => now < n
  | float bits => now * 2 ^ 1074 < f64Scaled bits

/-- The claims have not expired, and name the issuer and audience of the policy. -/
structure ClaimsCurrent (auth : EdgeAuth) (now : Int) (claims : Value) : Prop where
  exp : ∃ n e, claims.get "exp" = some (.number n) ∧ n.asI64 = some e ∧ now < e
  iss : ∀ issuer, auth.jwtIssuer = some issuer → claims.get "iss" = some (.string issuer)
  aud : ∀ audience, auth.jwtAudience = some audience → claims.get "aud" = some (.string audience) ∨
    ∃ items, claims.get "aud" = some (.array items) ∧ .string audience ∈ items

/-- The claims are in force: current, and with no `nbf` later than `now`. -/
structure ClaimsInForce (auth : EdgeAuth) (now : Int) (claims : Value) : Prop extends ClaimsCurrent auth now claims where
  nbf : ∀ n, claims.get "nbf" = some (.number n) → ¬ n.Later now

/-- The claims are current, and their `nbf` is a number later than `now` that is not a 64-bit integer. -/
structure ClaimsEarly (auth : EdgeAuth) (now : Int) (claims : Value) : Prop extends ClaimsCurrent auth now claims where
  early : ∃ n, claims.get "nbf" = some (.number n) ∧ n.asI64 = none ∧ n.Later now

/-- The parts of a token decode, are signed with HS256 under the secret, and their claims satisfy `P`. -/
def Signed (c : TokenCodecs) (auth : EdgeAuth) (header payload signature : List Char) (P : Value → Prop) : Prop :=
  ∃ headerBytes payloadBytes signatureBytes headerValue mac claims,
    c.base64Decode header = some headerBytes ∧ c.base64Decode payload = some payloadBytes ∧
    c.base64Decode signature = some signatureBytes ∧ c.fromSlice headerBytes = some headerValue ∧
    headerValue.get "alg" = some (.string "HS256") ∧ c.mac auth.jwtSecret = some mac ∧
    mac (utf8 (String.ofList (header ++ '.' :: payload))) signatureBytes = true ∧
    c.fromSlice payloadBytes = some claims ∧ P claims

theorem signed_or {header payload signature : List Char} :
    (Signed c auth header payload signature fun claims => P claims ∨ Q claims) ↔
      Signed c auth header payload signature P ∨ Signed c auth header payload signature Q := by
  simp only [Signed, and_or_left, exists_or]

theorem Signed.and {header payload signature : List Char} (hP : Signed c auth header payload signature P)
    (hQ : Signed c auth header payload signature Q) : ∃ claims, P claims ∧ Q claims := by
  obtain ⟨-, bytes, -, -, -, claims, -, hbytes, -, -, -, -, -, hclaims, hp⟩ := hP
  obtain ⟨-, bytes', -, -, -, claims', -, hbytes', -, -, -, -, -, hclaims', hq⟩ := hQ
  obtain rfl := Option.some.inj (hbytes.symm.trans hbytes')
  obtain rfl := Option.some.inj (hclaims.symm.trans hclaims')
  exact ⟨claims, hp, hq⟩

theorem AuthRequest.Carries.unique {h p s h' p' s' : List Char} (hc : req.Carries h p s) (hc' : req.Carries h' p' s') :
    h = h' ∧ p = p' ∧ s = s' := by
  obtain ⟨value, text, hvalue, hscheme, htoken, ⟨-, hh⟩, ⟨-, hp⟩, -, hs⟩ := hc
  obtain ⟨value', text', hvalue', hscheme', htoken', ⟨-, hh'⟩, ⟨-, hp'⟩, -, hs'⟩ := hc'
  obtain rfl := Option.some.inj (hvalue.symm.trans hvalue')
  have htext : text = text' := by
    rcases hscheme with hscheme | hscheme <;> rw [hscheme] at hscheme' <;> simpa using hscheme'
  have hparts := splitOn_eq_three.2 ⟨htoken, hh, hp, hs⟩
  rw [htext, splitOn_eq_three.2 ⟨htoken', hh', hp', hs'⟩] at hparts
  simpa [eq_comm] using hparts

/-! ## Checks -/

theorem orUnauthorized_bind_ok {α β : Type} {x : Option α} {msg : String} {f : α → Except XtableError β} {b : β} :
    (orUnauthorized x msg >>= f) = .ok b ↔ ∃ a, x = some a ∧ f a = .ok b := by
  cases x with
  | none => simp [orUnauthorized, unauthorized, bind, Except.bind]
  | some a => simp [orUnauthorized, bind, Except.bind]

theorem ite_unauthorized_ok {α : Type} {P : Prop} [Decidable P] {msg : String} {x : Except XtableError α} {a : α} :
    (if P then unauthorized msg else x) = .ok a ↔ ¬ P ∧ x = .ok a := by
  split
  · simp [unauthorized, *]
  · simp [*]

theorem bind_asI64_eq_some {x : Option Value} {e : Int} :
    x.bind Value.asI64 = some e ↔ ∃ n, x = some (.number n) ∧ n.asI64 = some e := by
  rw [Option.bind_eq_some_iff]
  constructor
  · rintro ⟨v, rfl, hv⟩
    cases v <;> simp_all [Value.asI64]
  · rintro ⟨n, rfl, hn⟩
    exact ⟨_, rfl, hn⟩

theorem later_of_asI64 {n : Number} {e : Int} (h : n.asI64 = some e) : n.Later now ↔ now < e := by
  cases n with
  | posInt n =>
    simp only [Number.asI64, Option.ite_none_right_eq_some] at h
    cases h.2
    rfl
  | negInt n =>
    cases h
    rfl
  | float bits => cases h

theorem audience_matches {x : Option Value} {audience : String} :
    (x.any fun aud => aud.asStr = some audience || aud.asArray.any fun values =>
      values.any fun v => v.asStr = some audience) = true ↔
      x = some (.string audience) ∨ ∃ items, x = some (.array items) ∧ .string audience ∈ items := by
  cases x with
  | none => simp
  | some aud => cases aud <;> simp [Validator.asStr_iff, Value.asArray]

theorem verifyClaims_ok_iff {claims : Value} :
    verifyClaims auth now claims = .ok () ↔ ClaimsCurrent auth now claims ∧
      ∀ n e, claims.get "nbf" = some (.number n) → n.asI64 = some e → ¬ now < e := by
  have hexp : (∃ e, (claims.get "exp").bind Value.asI64 = some e ∧ ¬ e ≤ now) ↔
      ∃ n e, claims.get "exp" = some (.number n) ∧ n.asI64 = some e ∧ now < e := by
    simp only [bind_asI64_eq_some, not_le]
    constructor
    · rintro ⟨e, ⟨n, hn, he⟩, hlt⟩
      exact ⟨n, e, hn, he, hlt⟩
    · rintro ⟨n, e, hn, he, hlt⟩
      exact ⟨e, ⟨n, hn, he⟩, hlt⟩
  have hnbf : ¬ ((claims.get "nbf").bind Value.asI64).any (fun nbf => now < nbf) = true ↔
      ∀ n e, claims.get "nbf" = some (.number n) → n.asI64 = some e → ¬ now < e := by
    simp only [Option.any_eq_true, bind_asI64_eq_some, decide_eq_true_eq]
    constructor
    · exact fun hnone n e hn he hlt => hnone ⟨e, ⟨n, hn, he⟩, hlt⟩
    · rintro hnone ⟨e, ⟨n, hn, he⟩, hlt⟩
      exact hnone n e hn he hlt
  have hiss : ¬ auth.jwtIssuer.any (fun issuer => (claims.get "iss").bind Value.asStr ≠ some issuer) = true ↔
      ∀ issuer, auth.jwtIssuer = some issuer → claims.get "iss" = some (.string issuer) := by
    simp [Option.any_eq_true, Validator.bind_eq_some_iff Validator.asStr_iff]
  have haud : ¬ auth.jwtAudience.any (fun audience => !((claims.get "aud").any fun aud =>
      aud.asStr = some audience || aud.asArray.any fun values => values.any fun v => v.asStr = some audience)) = true ↔
      ∀ audience, auth.jwtAudience = some audience → claims.get "aud" = some (.string audience) ∨
        ∃ items, claims.get "aud" = some (.array items) ∧ .string audience ∈ items := by
    simp only [← audience_matches]
    simp [Option.any_eq_true]
  unfold verifyClaims
  rw [orUnauthorized_bind_ok]
  simp only [ite_unauthorized_ok, hnbf, hiss, haud]
  constructor
  · rintro ⟨e, he, hnow, hnbf, hiss, haud, -⟩
    exact ⟨⟨hexp.1 ⟨e, he, hnow⟩, hiss, haud⟩, hnbf⟩
  · rintro ⟨⟨h1, h3, h4⟩, h2⟩
    obtain ⟨e, he, hnow⟩ := hexp.2 h1
    exact ⟨e, he, hnow, h2, h3, h4, trivial⟩

theorem verifyClaims_ok_iff_or {claims : Value} :
    verifyClaims auth now claims = .ok () ↔ ClaimsInForce auth now claims ∨ ClaimsEarly auth now claims := by
  rw [verifyClaims_ok_iff]
  constructor
  · rintro ⟨hcurrent, hpass⟩
    by_cases hearly : ∃ n, claims.get "nbf" = some (.number n) ∧ n.Later now
    · obtain ⟨n, hn, hlater⟩ := hearly
      refine .inr ⟨hcurrent, n, hn, ?_, hlater⟩
      exact Option.eq_none_iff_forall_ne_some.2 fun e he => hpass n e hn he ((later_of_asI64 he).1 hlater)
    · exact .inl ⟨hcurrent, fun n hn hlater => hearly ⟨n, hn, hlater⟩⟩
  · rintro (⟨hcurrent, hnbf⟩ | ⟨hcurrent, n, hn, hnone, -⟩)
    · exact ⟨hcurrent, fun n e hn he hlt => hnbf n hn ((later_of_asI64 he).2 hlt)⟩
    · refine ⟨hcurrent, fun m e hm he => ?_⟩
      cases hn.symm.trans hm
      cases hnone.symm.trans he

theorem three_parts_iff {token : List Char} :
    ¬ ((((token.splitOn '.')[0]?).getD [] = [] ∨ ((token.splitOn '.')[1]?).getD [] = [] ∨
        ((token.splitOn '.')[2]?).getD [] = [] ∨ ((token.splitOn '.')[3]?).isSome)) ↔
      ∃ a b c, token.splitOn '.' = [a, b, c] ∧ a ≠ [] ∧ b ≠ [] ∧ c ≠ [] := by
  rcases token.splitOn '.' with _ | ⟨a, _ | ⟨b, _ | ⟨c, _ | ⟨d, rest⟩⟩⟩⟩
  all_goals simp

theorem verifyJwt_ok_iff {token : List Char} :
    verifyJwt c auth now token = .ok () ↔ ∃ header payload signature,
      token = header ++ '.' :: (payload ++ '.' :: signature) ∧
      (header ≠ [] ∧ '.' ∉ header) ∧ (payload ≠ [] ∧ '.' ∉ payload) ∧ (signature ≠ [] ∧ '.' ∉ signature) ∧
      Signed c auth header payload signature fun claims => verifyClaims auth now claims = .ok () := by
  unfold verifyJwt
  rw [ite_unauthorized_ok, three_parts_iff]
  simp only [orUnauthorized_bind_ok, ite_unauthorized_ok, not_not, Validator.bind_eq_some_iff Validator.asStr_iff,
    Bool.not_eq_true', Bool.not_eq_false]
  constructor
  · rintro ⟨⟨a, b, d, hparts, ha, hb, hd⟩, hb', hbytes, pb, hpayload, sb, hsig, hv, hhv, halg, mac, hmac, hver, claims, hclaims, hok⟩
    obtain ⟨rfl, hna, hnb, hnd⟩ := splitOn_eq_three.1 hparts
    rw [hparts] at hbytes hpayload hsig hver
    exact ⟨a, b, d, rfl, ⟨ha, hna⟩, ⟨hb, hnb⟩, ⟨hd, hnd⟩, hb', pb, sb, hv, mac, claims, hbytes, hpayload, hsig, hhv, halg, hmac,
      hver, hclaims, hok⟩
  · rintro ⟨a, b, d, rfl, ⟨ha, hna⟩, ⟨hb, hnb⟩, ⟨hd, hnd⟩, hb', pb, sb, hv, mac, claims, hbytes, hpayload, hsig, hhv, halg,
      hmac, hver, hclaims, hok⟩
    have hparts := splitOn_eq_three.2 ⟨rfl, hna, hnb, hnd⟩
    refine ⟨⟨a, b, d, hparts, ha, hb, hd⟩, ?_⟩
    rw [hparts]
    exact ⟨hb', hbytes, pb, hpayload, sb, hsig, hv, hhv, halg, mac, hmac, hver, claims, hclaims, hok⟩

theorem dropPrefix_eq_some {text start rest : List Char} : text.dropPrefix? start = some rest ↔ text = start ++ rest := by
  rw [List.dropPrefix?_eq_some_iff]
  simp

theorem bearer_eq_some {text rest : List Char} :
    (text.dropPrefix? "Bearer ".toList).or (text.dropPrefix? "bearer ".toList) = some rest ↔
      text = "Bearer ".toList ++ rest ∨ text = "bearer ".toList ++ rest := by
  rw [Option.or_eq_some_iff, dropPrefix_eq_some, dropPrefix_eq_some]
  refine or_congr_right ⟨And.right, fun h => ⟨?_, h⟩⟩
  rw [h]
  rfl

theorem verifyRequest_iff_verifyJwt {isRead : Bool}
    (hanon : ¬ (isRead && auth.allowAnonymousRead && isAnonymous req) = true) :
    verifyRequest c auth now req isRead = .ok () ↔ ∃ value text, req.authorization.head? = some value ∧
      (headerText value = some ("Bearer ".toList ++ text) ∨ headerText value = some ("bearer ".toList ++ text)) ∧
      verifyJwt c auth now (trim text) = .ok () := by
  rw [verifyRequest, if_neg hanon]
  simp only [orUnauthorized_bind_ok, bearer_eq_some, Option.bind_eq_some_iff]
  constructor
  · rintro ⟨header, ⟨value, hvalue, htext⟩, text, hscheme, hjwt⟩
    rcases hscheme with rfl | rfl
    · exact ⟨value, text, hvalue, .inl htext, hjwt⟩
    · exact ⟨value, text, hvalue, .inr htext, hjwt⟩
  · rintro ⟨value, text, hvalue, hscheme, hjwt⟩
    rcases hscheme with htext | htext
    · exact ⟨_, ⟨value, hvalue, htext⟩, text, .inl rfl, hjwt⟩
    · exact ⟨_, ⟨value, hvalue, htext⟩, text, .inr rfl, hjwt⟩

/-- The request carries a signed token whose claims satisfy `P`. -/
def AuthRequest.Bears (req : AuthRequest) (c : TokenCodecs) (auth : EdgeAuth) (P : Value → Prop) : Prop :=
  ∃ header payload signature, req.Carries header payload signature ∧ Signed c auth header payload signature P

theorem AuthRequest.bears_or :
    (req.Bears c auth fun claims => P claims ∨ Q claims) ↔ req.Bears c auth P ∨ req.Bears c auth Q := by
  simp only [Bears, signed_or, and_or_left, exists_or]

theorem AuthRequest.Bears.and (hP : req.Bears c auth P) (hQ : req.Bears c auth Q) : ∃ claims, P claims ∧ Q claims := by
  obtain ⟨h, p, s, hcarries, hP⟩ := hP
  obtain ⟨h', p', s', hcarries', hQ⟩ := hQ
  obtain ⟨rfl, rfl, rfl⟩ := hcarries.unique hcarries'
  exact hP.and hQ

theorem verifyRequest_ok_iff {isRead : Bool} (hanon : ¬ (isRead && auth.allowAnonymousRead && isAnonymous req) = true) :
    verifyRequest c auth now req isRead = .ok () ↔ req.Bears c auth fun claims => verifyClaims auth now claims = .ok () := by
  simp only [verifyRequest_iff_verifyJwt hanon, verifyJwt_ok_iff]
  constructor
  · rintro ⟨value, text, hvalue, hscheme, h, p, s, htoken, hh, hp, hs, hsigned⟩
    exact ⟨h, p, s, ⟨value, text, hvalue, hscheme, htoken, hh, hp, hs⟩, hsigned⟩
  · rintro ⟨h, p, s, ⟨value, text, hvalue, hscheme, htoken, hh, hp, hs⟩, hsigned⟩
    exact ⟨value, text, hvalue, hscheme, h, p, s, htoken, hh, hp, hs, hsigned⟩

/-- A request that is not an admitted anonymous read is accepted exactly for a signed token whose claims are in force,
unless its token is one whose claims are early unnoticed. -/
theorem verifyRequest_accepts_iff (c : TokenCodecs) (auth : EdgeAuth) (now : Int) (req : AuthRequest) (isRead : Bool)
    (hanon : ¬ (isRead && auth.allowAnonymousRead && isAnonymous req) = true) :
    (verifyRequest c auth now req isRead = .ok () ↔ req.Bears c auth (ClaimsInForce auth now)) ↔
      ¬ req.Bears c auth (ClaimsEarly auth now) := by
  simp only [verifyRequest_ok_iff hanon, verifyClaims_ok_iff_or, AuthRequest.bears_or, or_iff_left_iff_imp]
  constructor
  · intro hforce hearly
    -- The one token would have an `nbf` both later and not later than now.
    obtain ⟨claims, hin, -, n, hn, -, hlater⟩ := (hforce hearly).and hearly
    exact hin.nbf n hn hlater
  · exact fun hnot hearly => absurd hearly hnot

/-! ## Two tokens -/

/-- Codecs under which the token `h.p.s` has the given claims and every signature passes. -/
def codecsOf (claims : Value) : TokenCodecs where
  base64Decode part := some (utf8 (String.ofList part))
  fromSlice bytes :=
    if bytes = utf8 "h" then some (.object [("alg", .string "HS256")])
    else if bytes = utf8 "p" then some claims
    else none
  mac _ := some fun _ _ => true

def tokenRequest : AuthRequest := ⟨[utf8 "Bearer h.p.s"]⟩

def openPolicy : EdgeAuth := ⟨utf8 "secret", none, none, false⟩

theorem carries_tokenRequest : tokenRequest.Carries ['h'] ['p'] ['s'] :=
  ⟨_, "h.p.s".toList, rfl, .inl (by decide +kernel), by decide, by decide, by decide, by decide⟩

theorem bears_tokenRequest {claims : Value} : tokenRequest.Bears (codecsOf claims) auth P ↔ P claims := by
  constructor
  · rintro ⟨h, p, s, hcarries, _, _, _, _, _, found, -, hpayload, -, -, -, -, -, hfound, hP⟩
    obtain ⟨-, rfl, -⟩ := hcarries.unique carries_tokenRequest
    obtain rfl := Option.some.inj hpayload
    obtain rfl := Option.some.inj hfound
    exact hP
  · exact fun hP => ⟨_, _, _, carries_tokenRequest, _, _, _, _, _, _, rfl, rfl, rfl, rfl, rfl, rfl, rfl, rfl, hP⟩

/-- A token that expires later. -/
theorem verifyRequest_accepts_iff_exp :
    verifyRequest (codecsOf (.object [("exp", .number (.posInt 5000000000))])) openPolicy 1000 tokenRequest false = .ok () ∧
    tokenRequest.Bears (codecsOf (.object [("exp", .number (.posInt 5000000000))])) openPolicy
      (ClaimsInForce openPolicy 1000) := by
  have hok : verifyRequest (codecsOf (.object [("exp", .number (.posInt 5000000000))])) openPolicy 1000 tokenRequest false =
    .ok () := by decide +kernel
  refine ⟨hok, ((verifyRequest_accepts_iff _ _ _ _ _ (by decide)).2 ?_).1 hok⟩
  rw [bears_tokenRequest]
  rintro ⟨-, n, hn, -⟩
  simp [Value.get] at hn

/-- The `nbf` of this token is the float `4000000000.0`, far in the future. -/
theorem float_nbf_accepted :
    verifyRequest (codecsOf (.object [("exp", .number (.posInt 5000000000)),
      ("nbf", .number (.float 0x41EDCD6500000000))])) openPolicy 1000 tokenRequest false = .ok () ∧
    ¬ tokenRequest.Bears (codecsOf (.object [("exp", .number (.posInt 5000000000)),
      ("nbf", .number (.float 0x41EDCD6500000000))])) openPolicy (ClaimsInForce openPolicy 1000) := by
  refine ⟨by decide +kernel, ?_⟩
  rw [bears_tokenRequest]
  intro hforce
  refine hforce.nbf (.float 0x41EDCD6500000000) rfl ?_
  change (1000 : Int) * 2 ^ 1074 < f64Scaled 0x41EDCD6500000000
  decide +kernel

end Xtable
