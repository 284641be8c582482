/-
  Validation of signed packets, after `ndn-cxx/security/validator.cpp`: the policy names the
  certificate that has to sign a packet; the validator finds it among the trust anchors and
  the verified certificates or has it fetched, in which case it has to be signed itself, and
  so on; and the chain is verified once a trusted certificate is found.

  Policy and fetcher are events: a policy continues each check once or fails it, as
  `ValidationPolicy` demands, and a fetch ends with any certificate or with none.
  Verification of a signature is a predicate.
-/

import NdnMulticast.Lib.Run
import Mathlib.Data.List.Sort

namespace NdnMulticast.Ndn.Security

open Lib List Option Run Nat

variable {κ ν π : Type}

/-- What is read of certificates `κ`, their names `ν` and packets `π`. -/
structure Env (κ ν π : Type) where
  name : κ → ν
  notBefore : κ → Int
  notAfter : κ → Int
  /-- `Interest::matchesData`, for an Interest of this name. -/
  matchesData : ν → κ → Bool
  /-- `verifySignature` under the key of the second certificate. -/
  verifyCert : κ → κ → Bool
  verifyPacket : π → κ → Bool
  maxDepth : Nat

def Env.isValid (env : Env κ ν π) (now : Int) (cert : κ) : Bool :=
  env.notBefore cert ≤ now && now ≤ env.notAfter cert

/-- What has happened in validation `i`, for the specification: no code reads it. -/
inductive Fact (κ ν : Type) where
  | bypassed (i : Nat)
  /-- The policy lets the packet (`none`) or a certificate be signed by one of that name. -/
  | approved (i : Nat) (signed : Option κ) (signer : ν)
  /-- The certificate was found or fetched for that request. -/
  | answered (i : Nat) (request : ν) (cert : κ)
  | retrieved (i : Nat) (cert : κ) (now : Int)
  /-- The certificate was a trust anchor when it was found. -/
  | anchor (cert : κ)

/-- `CertificateStorage`, without what the fetcher keeps.  Both containers are in the order of the
    names; a verified certificate has a time of removal. -/
structure Validator (κ ν : Type) where
  trustAnchors : List κ := []
  verifiedCertCache : List (κ × Int) := []
  history : List (Fact κ ν) := []

inductive Stage (κ ν : Type) where
  /-- The policy is looking at the packet or at a certificate. -/
  | checking (signed : Option κ)
  | fetching (request : ν)
  | ended (outcome : Bool)

/-- `ValidationState`. -/
structure Validation (κ ν π : Type) where
  packet : π
  /-- The certificate added last comes first. -/
  certificateChain : List κ := []
  seenCertificateNames : List ν := []
  /-- The names given to the fetcher. -/
  fetches : List ν := []
  /-- How many decisions and fetched certificates there have been. -/
  answers : Nat := 0
  stage : Stage κ ν := .checking none

def Validation.fail (v : Validation κ ν π) : Validation κ ν π := { v with stage := .ended false }

def Validation.count (v : Validation κ ν π) : Validation κ ν π :=
  { v with answers := v.answers + 1 }

/-- What a policy does: it fails, continues without a request or with one. -/
inductive Decision (ν : Type) where
  | fail
  | bypass
  | request (name : ν)

namespace Validator

/-- `1_h`, in nanoseconds. -/
def maxLifetime : Int := 3600000000000

def note (f : Fact κ ν) (s : Validator κ ν) : Validator κ ν := { s with history := f :: s.history }

/-- `CertificateCache::refresh`. -/
def refresh (now : Int) (s : Validator κ ν) : Validator κ ν :=
  { s with verifiedCertCache := s.verifiedCertCache.filter fun e => ¬ e.2 < now }

def findTrustedCert (env : Env κ ν π) (now : Int) (n : ν) (s : Validator κ ν) :
    Validator κ ν × Option κ :=
  match s.trustAnchors.find? (env.matchesData n) with
  | some cert => (s.note (.anchor cert), some cert)
  | none =>
    let s := s.refresh now
    (s, (s.verifiedCertCache.find? fun e => env.matchesData n e.1).map Prod.fst)

variable [LinearOrder ν]

def cacheVerifiedCert (env : Env κ ν π) (now : Int) (s : Validator κ ν) (cert : κ) :
    Validator κ ν :=
  if env.notAfter cert < now then s
  else if s.verifiedCertCache.any fun e => env.name e.1 = env.name cert then s
  else
    { s with
      verifiedCertCache := s.verifiedCertCache.orderedInsert
        (fun a b => env.name a.1 ≤ env.name b.1)
        (cert, min (env.notAfter cert) (now + maxLifetime)) }

end Validator

/-- The part of the chain that is verified, and its end if that is all of it. -/
def verifyCertificateChain (env : Env κ ν π) (trustedCert : κ) : List κ → List κ × Option κ
  | [] => ([], some trustedCert)
  | cert :: chain =>
    if env.verifyCert cert trustedCert then
      let (verified, last) := verifyCertificateChain env cert chain
      (cert :: verified, last)
    else ([], none)

section

variable [LinearOrder ν]

def requestCertificate (env : Env κ ν π) (i : Nat) (now : Int) (n : ν) (s : Validator κ ν)
    (v : Validation κ ν π) : Validator κ ν × Validation κ ν π :=
  if env.maxDepth ≤ v.certificateChain.length then (s, v.fail)
  else if n ∈ v.seenCertificateNames then (s, v.fail)
  else
    let v := { v with seenCertificateNames := n :: v.seenCertificateNames }
    match s.findTrustedCert env now n with
    | (s, some cert) =>
      let (certificateChain, last) := verifyCertificateChain env cert v.certificateChain
      -- `verifyOriginalPacket`, then the verified certificates are cached
      (certificateChain.foldl (Validator.cacheVerifiedCert env now) (s.note (.answered i n cert)),
        { v with certificateChain, stage := .ended (last.any (env.verifyPacket v.packet)) })
    | (s, none) => (s, { v with fetches := n :: v.fetches, stage := .fetching n })

/-- The continuation of `checkPolicy`, for the packet and for a certificate. -/
def continueValidation (env : Env κ ν π) (i : Nat) (now : Int) (signed : Option κ)
    (s : Validator κ ν) (v : Validation κ ν π) : Decision ν → Validator κ ν × Validation κ ν π
  | .fail => (s, v.fail)
  | .bypass =>
    -- a certificate may not be designated as a trust anchor
    if signed.isSome then (s, v.fail) else (s.note (.bypassed i), { v with stage := .ended true })
  | .request n =>
    requestCertificate env i now n (s.note (.approved i signed n))
      { v with certificateChain := signed.toList ++ v.certificateChain }

/-- `Validator::validate` of a fetched certificate, up to `checkPolicy`. -/
def validateCertificate (env : Env κ ν π) (i : Nat) (now : Int) (n : ν) (cert : κ)
    (s : Validator κ ν) (v : Validation κ ν π) : Validator κ ν × Validation κ ν π :=
  if env.isValid now cert then
    ((s.note (.answered i n cert)).note (.retrieved i cert now),
      { v with stage := .checking (some cert) })
  else (s, v.fail)

/-- What a validation waits for: the policy's decision or the end of a fetch. -/
inductive Answer (κ ν : Type) where
  | policy (decision : Decision ν)
  | fetcher (cert : Option κ)

def resume (env : Env κ ν π) (i : Nat) (now : Int) (s : Validator κ ν) (v : Validation κ ν π) :
    Answer κ ν → Option (Validator κ ν × Validation κ ν π)
  | .policy decision =>
    match v.stage with
    | .checking signed => some (continueValidation env i now signed s v decision)
    | _ => none
  | .fetcher cert =>
    match v.stage, cert with
    | .fetching n, some cert => some (validateCertificate env i now n cert s v)
    | .fetching _, none => some (s, v.fail)
    | _, _ => none

inductive Event (κ ν π : Type) where
  | validate (packet : π)
  | resume (i : Nat) (now : Int) (answer : Answer κ ν)
  /-- `loadAnchor`, `resetAnchors` and the refreshing of groups. -/
  | setAnchors (trustAnchors : List κ)
  | resetVerifiedCertificates

structure System (κ ν π : Type) where
  validator : Validator κ ν := {}
  validations : List (Validation κ ν π) := []

def step (env : Env κ ν π) (s : System κ ν π) : Event κ ν π → Option (System κ ν π)
  | .validate packet => some { s with validations := s.validations ++ [{ packet }] }
  | .resume i now answer =>
    match s.validations[i]? with
    | none => none
    | some v =>
      (resume env i now s.validator v.count answer).map fun r =>
        { validator := r.1, validations := s.validations.set i r.2 }
  | .setAnchors trustAnchors => some { s with validator := { s.validator with trustAnchors } }
  | .resetVerifiedCertificates =>
    some { s with validator := { s.validator with verifiedCertCache := [] } }

variable {env : Env κ ν π} {i : Nat} {now : Int} {n : ν} {s : Validator κ ν}
  {v : Validation κ ν π} {r : Validator κ ν × Validation κ ν π} {answer : Answer κ ν}

theorem step_resume {s s' : System κ ν π} (h : step env s (.resume i now answer) = some s') :
    ∃ v r, s.validations[i]? = some v ∧ resume env i now s.validator v.count answer = some r ∧
      s' = { validator := r.1, validations := s.validations.set i r.2 } := by
  rw [step] at h
  split at h
  · cases h
  · rename_i v hv
    obtain ⟨r, hr, rfl⟩ := map_eq_some_iff.1 h
    exact ⟨v, r, hv, hr, rfl⟩

/-! ## Invariants of validations and of the cache -/

/-- Every verified certificate and every validation has a property of the history. -/
structure Keeps (K : List (Fact κ ν) → κ → Prop)
    (P : List (Fact κ ν) → Nat → Validation κ ν π → Prop) (s : System κ ν π) : Prop where
  cached : ∀ e ∈ s.validator.verifiedCertCache, K s.validator.history e.1
  each : ∀ i v, s.validations[i]? = some v → P s.validator.history i v

/-- What resuming one validation keeps, and more history does not spoil, every step keeps. -/
theorem Keeps.step {K : List (Fact κ ν) → κ → Prop}
    {P : List (Fact κ ν) → Nat → Validation κ ν π → Prop}
    (hnew : ∀ H i packet, P H i { packet })
    (hresume : ∀ {i now s v answer r}, (∀ e ∈ s.verifiedCertCache, K s.history e.1) →
      P s.history i v → resume env i now s v.count answer = some r →
      (∀ e ∈ r.1.verifiedCertCache, K r.1.history e.1) ∧ P r.1.history i r.2 ∧
        ∀ j w, P s.history j w → P r.1.history j w)
    {s s' : System κ ν π} {e : Event κ ν π} (hs : Keeps K P s)
    (hstep : step env s e = some s') : Keeps K P s' := by
  cases e with
  | validate packet =>
    obtain rfl := some.inj hstep
    refine ⟨hs.cached, fun j v hv => ?_⟩
    rw [getElem?_append] at hv
    split at hv
    · exact hs.each j v hv
    · obtain rfl : ({ packet } : Validation κ ν π) = v := by
        simpa using mem_of_getElem? hv |> mem_singleton.1 |> Eq.symm
      exact hnew _ _ _
  | resume i now answer =>
    obtain ⟨v, r, hv, hr, rfl⟩ := step_resume hstep
    obtain ⟨hcached, hthis, hothers⟩ := hresume hs.cached (hs.each i v hv) hr
    refine ⟨hcached, fun j w hw => ?_⟩
    rw [getElem?_set] at hw
    split at hw
    · -- the resumed validation itself
      rename_i hij
      split at hw
      · rw [← hij, ← some.inj hw]
        exact hthis
      · cases hw
    · exact hothers j w (hs.each j w hw)
  | setAnchors as =>
    obtain rfl := some.inj hstep
    exact ⟨hs.cached, hs.each⟩
  | resetVerifiedCertificates =>
    obtain rfl := some.inj hstep
    exact ⟨by simp, hs.each⟩

/-! ## The number of requests -/

/-- How many answers a validation can still get. -/
def remaining (env : Env κ ν π) (v : Validation κ ν π) : Nat :=
  match v.stage with
  | .checking _ => 2 * (env.maxDepth - v.seenCertificateNames.length) + 1
  | .fetching _ => 2 * (env.maxDepth - v.seenCertificateNames.length) + 2
  | .ended _ => 0

/-- Each request is of a new name and adds to the chain, whose length is limited. -/
structure Bounded (env : Env κ ν π) (v : Validation κ ν π) : Prop where
  nodup : v.seenCertificateNames.Nodup
  length_le : v.seenCertificateNames.length ≤ env.maxDepth
  fetches : v.fetches.Sublist v.seenCertificateNames
  answers : v.answers + remaining env v ≤ 2 * env.maxDepth + 1
  chain : match v.stage with
    | .checking none => v.certificateChain = [] ∧ v.seenCertificateNames = []
    | .ended _ => True
    | _ => v.seenCertificateNames.length = v.certificateChain.length + 1

/-- What an answer makes of a validation. -/
theorem resume_cases (hr : resume env i now s v answer = some r) :
    (1 ≤ remaining env v ∧ r = (s, v.fail)) ∨
    (v.stage = .checking none ∧ r = (s.note (.bypassed i), { v with stage := .ended true })) ∨
    (∃ signed n, v.stage = .checking signed ∧
      r = requestCertificate env i now n (s.note (.approved i signed n))
        { v with certificateChain := signed.toList ++ v.certificateChain }) ∨
    (∃ n cert, v.stage = .fetching n ∧ env.isValid now cert = true ∧
      r = ((s.note (.answered i n cert)).note (.retrieved i cert now),
        { v with stage := .checking (some cert) })) := by
  cases answer with
  | policy decision =>
    cases hstage : v.stage with
    | checking signed =>
      obtain rfl : continueValidation env i now signed s v decision = r := by
        simpa [resume, hstage] using hr
      cases decision with
      | fail => exact .inl ⟨by simp [remaining, hstage], rfl⟩
      | bypass =>
        cases signed with
        | none => exact .inr (.inl ⟨rfl, rfl⟩)
        | some cert => exact .inl ⟨by simp [remaining, hstage], rfl⟩
      | request n => exact .inr (.inr (.inl ⟨signed, n, rfl, rfl⟩))
    | fetching | ended => simp [resume, hstage] at hr
  | fetcher cert =>
    cases hstage : v.stage with
    | fetching n =>
      cases cert with
      | none => exact .inl ⟨by simp [remaining, hstage], by simpa [resume, hstage] using hr.symm⟩
      | some cert =>
        obtain rfl : validateCertificate env i now n cert s v = r := by
          simpa [resume, hstage] using hr
        rw [validateCertificate]
        split
        · rename_i hvalid
          exact .inr (.inr (.inr ⟨n, cert, rfl, hvalid, rfl⟩))
        · exact .inl ⟨by simp [remaining, hstage], rfl⟩
    | checking | ended => simp [resume, hstage] at hr

/-- A request ends the validation or adds a name and has it fetched. -/
theorem requestCertificate_bounded (i : Nat) (now : Int) (n : ν) (s : Validator κ ν)
    (hnodup : v.seenCertificateNames.Nodup)
    (hfetches : v.fetches.Sublist v.seenCertificateNames)
    (hlength : v.seenCertificateNames.length = v.certificateChain.length)
    (hle : v.seenCertificateNames.length ≤ env.maxDepth)
    (hanswers : v.answers + 2 * (env.maxDepth - v.seenCertificateNames.length) ≤
      2 * env.maxDepth + 1) : Bounded env (requestCertificate env i now n s v).2 := by
  have hended : v.answers + 0 ≤ 2 * env.maxDepth + 1 := by omega
  unfold requestCertificate
  split
  · exact ⟨hnodup, hle, hfetches, hended, trivial⟩
  split
  · exact ⟨hnodup, hle, hfetches, hended, trivial⟩
  rename_i hdepth hseen
  have hcons : (n :: v.seenCertificateNames).Nodup := nodup_cons.2 ⟨hseen, hnodup⟩
  have hlt : (n :: v.seenCertificateNames).length ≤ env.maxDepth := by
    rw [length_cons]
    omega
  split
  · exact ⟨hcons, hlt, hfetches.cons _, hended, trivial⟩
  refine ⟨hcons, hlt, hfetches.cons_cons _, ?_, ?_⟩
  · show v.answers + (2 * (env.maxDepth - (n :: v.seenCertificateNames).length) + 2) ≤ _
    rw [length_cons] at hlt ⊢
    omega
  · show (n :: v.seenCertificateNames).length = v.certificateChain.length + 1
    rw [length_cons, hlength]

theorem resume_bounded (h : Bounded env v)
    (hr : resume env i now s v.count answer = some r) :
    Bounded env r.2 := by
  have hchain := h.chain
  have hanswers := h.answers
  have hended : 1 ≤ remaining env v → v.answers + 1 + 0 ≤ 2 * env.maxDepth + 1 := by omega
  obtain ⟨hpos, rfl⟩ | ⟨hstage, rfl⟩ | ⟨signed, n, hstage, rfl⟩ | ⟨n, cert, hstage, -, rfl⟩ :=
    resume_cases hr
  · exact ⟨h.nodup, h.length_le, h.fetches, hended hpos, trivial⟩
  · have hstage : v.stage = .checking none := hstage
    exact ⟨h.nodup, h.length_le, h.fetches, hended (by simp [remaining, hstage]), trivial⟩
  · have hstage : v.stage = .checking signed := hstage
    rw [hstage] at hchain
    rw [remaining, hstage] at hanswers
    refine requestCertificate_bounded i now n _ h.nodup h.fetches ?_ h.length_le ?_
    · cases signed with
      | none =>
        show v.seenCertificateNames.length = v.certificateChain.length
        rw [hchain.1, hchain.2]
        rfl
      | some cert => exact hchain
    · show v.answers + 1 + 2 * (env.maxDepth - v.seenCertificateNames.length) ≤ _
      dsimp only at hanswers
      omega
  · have hstage : v.stage = .fetching n := hstage
    rw [hstage] at hchain
    rw [remaining, hstage] at hanswers
    refine ⟨h.nodup, h.length_le, h.fetches, ?_, hchain⟩
    show v.answers + 1 + (2 * (env.maxDepth - v.seenCertificateNames.length) + 1) ≤ _
    dsimp only at hanswers
    omega

/-- A validation that has not ended can be resumed, whatever the answer it waits for. -/
theorem isSome_step_or_ended {s : System κ ν π} (hv : s.validations[i]? = some v) :
    (∃ outcome, v.stage = .ended outcome) ∨
    (∀ now decision, (step env s (.resume i now (.policy decision))).isSome = true) ∨
    (∀ now cert, (step env s (.resume i now (.fetcher cert))).isSome = true) := by
  cases hstage : v.stage with
  | checking signed =>
    refine .inr (.inl fun now decision => ?_)
    simp [step, hv, resume, Validation.count, hstage]
  | fetching n =>
    refine .inr (.inr fun now cert => ?_)
    cases cert <;> simp [step, hv, resume, Validation.count, hstage]
  | ended outcome => exact .inl ⟨outcome, rfl⟩

/-- Certificates are their names, and every signature verifies. -/
def plainEnv : Env Nat Nat Nat :=
  { name := id, notBefore := fun _ => 0, notAfter := fun _ => 9, matchesData := fun n c => n == c
    verifyCert := fun _ _ => true, verifyPacket := fun _ _ => true, maxDepth := 25 }

/-- Certificate 2 is fetched for the packet, and anchor 1 has signed it. -/
def oneFetch : List (Event Nat Nat Nat) :=
  [.setAnchors [1], .validate 0, .resume 0 5 (.policy (.request 2)),
    .resume 0 6 (.fetcher (some 2)),
    .resume 0 6 (.policy (.request 1))]

/-- A trust anchor, or a certificate that was valid when fetched and whose signature verifies under
    a trusted one that the policy asked for in the same validation. -/
inductive Trusted (env : Env κ ν π) (H : List (Fact κ ν)) : κ → Prop where
  | anchor {cert} : .anchor cert ∈ H → Trusted env H cert
  | signed {i now n cert signer} : .retrieved i cert now ∈ H → env.isValid now cert = true →
      .approved i (some cert) n ∈ H → .answered i n signer ∈ H → Trusted env H signer →
      env.verifyCert cert signer = true → Trusted env H cert

/-- The packet was let through, or a trusted certificate that the policy asked for signs it. -/
def Vouched (env : Env κ ν π) (H : List (Fact κ ν)) (i : Nat) (packet : π) : Prop :=
  .bypassed i ∈ H ∨ ∃ n signer, .approved i none n ∈ H ∧ .answered i n signer ∈ H ∧
    Trusted env H signer ∧ env.verifyPacket packet signer = true

/-- Request `n` is for the signer of the last certificate of the chain, and each was fetched for the
    signer of the next or of the packet. -/
def Awaits (env : Env κ ν π) (H : List (Fact κ ν)) (i : Nat) : List κ → ν → Prop
  | [], n => .approved i none n ∈ H
  | cert :: chain, n => .approved i (some cert) n ∈ H ∧
      (∃ now, .retrieved i cert now ∈ H ∧ env.isValid now cert = true) ∧
      ∃ m, .answered i m cert ∈ H ∧ Awaits env H i chain m

def Justified (env : Env κ ν π) (H : List (Fact κ ν)) (i : Nat) (v : Validation κ ν π) : Prop :=
  match v.stage with
  | .checking none => v.certificateChain = []
  | .checking (some cert) => (∃ now, .retrieved i cert now ∈ H ∧ env.isValid now cert = true) ∧
      ∃ m, .answered i m cert ∈ H ∧ Awaits env H i v.certificateChain m
  | .fetching n => Awaits env H i v.certificateChain n
  | .ended outcome => outcome = true → Vouched env H i v.packet

section

variable {H H' : List (Fact κ ν)}

omit [LinearOrder ν] in
theorem Trusted.mono (hsub : H ⊆ H') {cert : κ} (h : Trusted env H cert) : Trusted env H' cert := by
  induction h with
  | anchor h => exact .anchor (hsub h)
  | signed hret hvalid happ hans _ hverify ih =>
    exact .signed (hsub hret) hvalid (hsub happ) (hsub hans) ih hverify

omit [LinearOrder ν] in
theorem Awaits.mono (hsub : H ⊆ H') {chain : List κ} {n : ν} (h : Awaits env H i chain n) :
    Awaits env H' i chain n := by
  induction chain generalizing n with
  | nil => exact hsub h
  | cons cert chain ih =>
    obtain ⟨happ, ⟨now, hret, hvalid⟩, m, hans, htail⟩ := h
    exact ⟨hsub happ, ⟨now, hsub hret, hvalid⟩, m, hsub hans, ih htail⟩

omit [LinearOrder ν] in
theorem Justified.mono (hsub : H ⊆ H') (h : Justified env H i v) : Justified env H' i v := by
  unfold Justified at h ⊢
  split at h
  · exact h
  · obtain ⟨⟨now, hret, hvalid⟩, m, hans, htail⟩ := h
    exact ⟨⟨now, hsub hret, hvalid⟩, m, hsub hans, htail.mono hsub⟩
  · exact h.mono hsub
  · intro hok
    obtain hby | ⟨n, signer, happ, hans, ht, hverify⟩ := h hok
    · exact .inl (hsub hby)
    · exact .inr ⟨n, signer, hsub happ, hsub hans, ht.mono hsub, hverify⟩

omit [LinearOrder ν] in
/-- What is verified from a trusted certificate on can be trusted, and the end of the chain is a
    certificate the packet waits for. -/
theorem verifyCertificateChain_trusted {chain : List κ} {n : ν} {trustedCert : κ}
    (hawaits : Awaits env H i chain n) (hans : .answered i n trustedCert ∈ H)
    (htrusted : Trusted env H trustedCert) :
    (∀ c ∈ (verifyCertificateChain env trustedCert chain).1, Trusted env H c) ∧
    ∀ c, (verifyCertificateChain env trustedCert chain).2 = some c →
      ∃ m, .approved i none m ∈ H ∧ .answered i m c ∈ H ∧ Trusted env H c := by
  induction chain generalizing n trustedCert with
  | nil =>
    refine ⟨by simp [verifyCertificateChain], fun c hc => ?_⟩
    obtain rfl := some.inj hc
    exact ⟨n, hawaits, hans, htrusted⟩
  | cons cert chain ih =>
    obtain ⟨happ, ⟨now, hret, hvalid⟩, m, hans', htail⟩ := hawaits
    rw [verifyCertificateChain]
    split
    · rename_i hverify
      have hcert : Trusted env H cert := .signed hret hvalid happ hans htrusted hverify
      obtain ⟨hall, hlast⟩ := ih htail hans' hcert
      exact ⟨forall_mem_cons.2 ⟨hcert, hall⟩, hlast⟩
    · exact ⟨by simp, by simp⟩

/-- The history has grown to that of `s`, whose verified certificates can be trusted. -/
def Extends (env : Env κ ν π) (H : List (Fact κ ν)) (s : Validator κ ν) : Prop :=
  H ⊆ s.history ∧ ∀ e ∈ s.verifiedCertCache, Trusted env s.history e.1

omit [LinearOrder ν] in
theorem Extends.note (h : Extends env H s) (f : Fact κ ν) : Extends env H (s.note f) :=
  have hsub : s.history ⊆ (s.note f).history := subset_cons_self _ _
  ⟨Subset.trans h.1 hsub, fun e he => (h.2 e he).mono hsub⟩

omit [LinearOrder ν] in
theorem Extends.trans (h' : Extends env H' s) (h : H ⊆ H') : Extends env H s :=
  ⟨Subset.trans h h'.1, h'.2⟩

omit [LinearOrder ν] in
theorem findTrustedCert_trusted (env : Env κ ν π) (now : Int) (n : ν) (hs : Extends env H s) :
    Extends env H (s.findTrustedCert env now n).1 ∧
    ∀ cert, (s.findTrustedCert env now n).2 = some cert →
      Trusted env (s.findTrustedCert env now n).1.history cert := by
  unfold Validator.findTrustedCert
  split
  · rename_i cert _
    refine ⟨hs.note _, fun c hc => ?_⟩
    obtain rfl := some.inj hc
    exact .anchor (.head _)
  · have hcached : ∀ e ∈ (s.refresh now).verifiedCertCache, Trusted env s.history e.1 :=
      fun e he => hs.2 e (mem_filter.1 he).1
    refine ⟨⟨hs.1, hcached⟩, fun c hc => ?_⟩
    obtain ⟨e, he, rfl⟩ := map_eq_some_iff.1 hc
    exact hcached e (mem_of_find?_eq_some he)

theorem cacheVerifiedCert_trusted {cert : κ} (hs : Extends env H s) (hcert : Trusted env H cert) :
    Extends env H (s.cacheVerifiedCert env now cert) := by
  unfold Validator.cacheVerifiedCert
  split
  · exact hs
  split
  · exact hs
  · refine ⟨hs.1, fun e he => ?_⟩
    obtain rfl | he := (mem_orderedInsert _).1 he
    · exact hcert.mono hs.1
    · exact hs.2 e he

theorem foldl_cacheVerifiedCert_trusted (now : Int) {certs : List κ} (hs : Extends env H s)
    (hcerts : ∀ c ∈ certs, Trusted env H c) :
    Extends env H (certs.foldl (Validator.cacheVerifiedCert env now) s) := by
  induction certs generalizing s with
  | nil => exact hs
  | cons cert certs ih =>
    obtain ⟨hcert, hcerts⟩ := forall_mem_cons.1 hcerts
    exact ih (cacheVerifiedCert_trusted hs hcert) hcerts

theorem requestCertificate_justified (now : Int) (hs : Extends env s.history s)
    (hawaits : Awaits env s.history i v.certificateChain n) :
    Extends env s.history (requestCertificate env i now n s v).1 ∧
    Justified env (requestCertificate env i now n s v).1.history i
      (requestCertificate env i now n s v).2 := by
  obtain ⟨hext, hfound⟩ := findTrustedCert_trusted env now n hs
  unfold requestCertificate
  split
  · exact ⟨hs, nofun⟩
  split
  · exact ⟨hs, nofun⟩
  generalize s.findTrustedCert env now n = r at hext hfound ⊢
  obtain ⟨s', _ | cert⟩ := r
  · exact ⟨hext, hawaits.mono hext.1⟩
  -- the answer is on record before the chain is verified
  have hnote := hext.note (.answered i n cert)
  obtain ⟨hverified, hlast⟩ := verifyCertificateChain_trusted (hawaits.mono hnote.1)
    (.head _) ((hfound cert rfl).mono (subset_cons_self _ _))
  have hcached := foldl_cacheVerifiedCert_trusted now ⟨Subset.refl _, hnote.2⟩ hverified
  refine ⟨hcached.trans hnote.1, fun hok => ?_⟩
  obtain ⟨c, hc, hverify⟩ := (any_eq_true _ _).1 hok
  obtain ⟨m, happ, hans, htrusted⟩ := hlast c hc
  exact .inr ⟨m, c, hcached.1 happ, hcached.1 hans, htrusted.mono hcached.1, hverify⟩

theorem resume_justified (hs : Extends env s.history s) (hv : Justified env s.history i v)
    (hr : resume env i now s v answer = some r) :
    Extends env s.history r.1 ∧ Justified env r.1.history i r.2 := by
  unfold Justified at hv
  obtain ⟨-, rfl⟩ | ⟨hstage, rfl⟩ | ⟨signed, n, hstage, rfl⟩ | ⟨n, cert, hstage, hvalid, rfl⟩ :=
    resume_cases hr
  · exact ⟨hs, nofun⟩
  · exact ⟨hs.note _, fun _ => .inl (.head _)⟩
  · have hnote := hs.note (.approved i signed n)
    rw [hstage] at hv
    have hawaits : Awaits env (s.note (.approved i signed n)).history i
        (signed.toList ++ v.certificateChain) n := by
      cases signed with
      | none =>
        rw [show v.certificateChain = [] from hv]
        exact .head _
      | some cert =>
        obtain ⟨⟨now, hret, hvalid⟩, m, hans, htail⟩ := hv
        exact ⟨(.head _), ⟨now, hnote.1 hret, hvalid⟩, m, hnote.1 hans, htail.mono hnote.1⟩
    obtain ⟨hext, hjustified⟩ := requestCertificate_justified now
      (v := { v with certificateChain := signed.toList ++ v.certificateChain })
      ⟨Subset.refl _, hnote.2⟩ hawaits
    exact ⟨hext.trans hnote.1, hjustified⟩
  · have hnote := (hs.note (.answered i n cert)).note (.retrieved i cert now)
    rw [hstage] at hv
    exact ⟨hnote, ⟨now, (.head _), hvalid⟩, n, .tail _ (.head _), hv.mono hnote.1⟩

/-- **Only what a chain of approved, valid and verified certificates from a trust anchor on vouches
    for is reported as valid or kept as verified**, unless the policy lets the packet through. -/
theorem validate_sound {es : List (Event κ ν π)} {s : System κ ν π}
    (hrun : Run (step env) (fun _ _ => True) {} es s) :
    (∀ i v, s.validations[i]? = some v → v.stage = .ended true →
      Vouched env s.validator.history i v.packet) ∧
    ∀ e ∈ s.validator.verifiedCertCache, Trusted env s.validator.history e.1 := by
  have hkeeps : Keeps (Trusted env) (Justified env) s := by
    refine invariant (fun _ _ _ hs _ hstep => hs.step ?_ ?_ hstep) hrun ⟨by simp, by simp⟩
    · exact fun _ _ _ => rfl
    · intro i now s v answer r hs hv hr
      obtain ⟨hext, hthis⟩ := resume_justified (v := v.count) ⟨Subset.refl _, hs⟩ hv hr
      exact ⟨hext.2, hthis, fun j w h => h.mono hext.1⟩
  refine ⟨fun i v hv hended => ?_, hkeeps.cached⟩
  have h := hkeeps.each i v hv
  rw [Justified, hended] at h
  exact h rfl

theorem validate_sound_oneFetch :
    ∃ s : System Nat Nat Nat, s.validator.verifiedCertCache.map Prod.fst = [2] ∧
      ∀ e ∈ s.validator.verifiedCertCache, Trusted plainEnv s.validator.history e.1 := by
  obtain ⟨s, hrun, hcache⟩ : ∃ s, Run (step plainEnv) (fun _ _ => True) {} oneFetch s ∧
      s.validator.verifiedCertCache.map Prod.fst = [2] :=
    exists_of_decide _ (by decide) fun _ _ ht => ht
  exact ⟨s, hcache, (validate_sound hrun).2⟩

end

end

end NdnMulticast.Ndn.Security
