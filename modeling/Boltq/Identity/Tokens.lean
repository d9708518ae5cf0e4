import Boltq.Identity.Policy

namespace Boltq.Identity
open Lib Boltq.Stream Std

structure SigningKey where
  id : String
  secret : Bytes
  deriving DecidableEq

structure Header where
  alg : String
  kid : String

structure Claims where
  subject : Bytes
  deviceID : Bytes := []
  tenant : Bytes := []
  scopes : List Bytes := []
  notBefore : Int := 0
  expiresAt : Int := 0
  issuer : String := ""
  tokenID : String := ""

inductive TokenErr where
  | noKeys
  | shortKey (id : String) (n : Nat)
  | malformed (why : String)
  | badSignature (why : String)
  | unknownKeyID (kid : String)
  | noSubject
  | tokenExpired
  | tokenNotYetValid
  deriving DecidableEq

structure Decoding where
  base64 : Bytes → Option Bytes
  header : Bytes → Option Header
  claims : Bytes → Option Claims

structure Verifier where
  keys : TreeMap String SigningKey
  fallback : SigningKey
  issuer : String
  leeway : Int
  revoked : TreeMap String Int

namespace Verifier

def new (keys : List SigningKey) (issuer : String) (leeway : Int) : Except TokenErr Verifier :=
  match keys with
  | [] => .error .noKeys
  | first :: _ =>
    match keys.find? (fun k => k.secret.length < 32) with
    | some k => .error (.shortKey k.id k.secret.length)
    | none => .ok
      { keys := keys.foldl (fun t k => t.insert k.id k) ∅
        fallback := first
        issuer
        leeway := if leeway ≤ 0 then 60 * 10 ^ 9 else leeway
        revoked := ∅ }

def addKey (v : Verifier) (k : SigningKey) : Except TokenErr Verifier :=
  if k.secret.length < 32 then .error (.shortKey k.id k.secret.length)
  else .ok { v with keys := v.keys.insert k.id k }

def removeKey (v : Verifier) (id : String) : Verifier := { v with keys := v.keys.erase id }

def keyFor (v : Verifier) (kid : String) : Option SigningKey :=
  if kid ≠ "" then v.keys[kid]? else some v.fallback

def accept (v : Verifier) (c : Claims) (now : Int) : Except TokenErr Principal :=
  if c.subject = [] then .error .noSubject
  else if v.issuer ≠ "" ∧ c.issuer ≠ v.issuer then .error (.badSignature "issuer not accepted")
  else if c.expiresAt ≠ 0 ∧ c.expiresAt * 10 ^ 9 + v.leeway < now then .error .tokenExpired
  else if c.notBefore ≠ 0 ∧ now < c.notBefore * 10 ^ 9 - v.leeway then .error .tokenNotYetValid
  else if c.tokenID ≠ "" ∧ v.revoked[c.tokenID]?.any (now < ·) then
    .error (.badSignature "token revoked")
  else .ok
    { userID := c.subject
      deviceID := c.deviceID
      tenant := c.tenant
      scopes := if c.scopes = [] then ["publish", "subscribe", "presence"].map nameBytes
        else c.scopes
      expiresAt := if c.expiresAt ≠ 0 then some (c.expiresAt * 10 ^ 9) else none }

def verifyAt (d : Decoding) (mac : Bytes → Bytes → Bytes) (v : Verifier) (token : Bytes)
    (now : Int) : Except TokenErr Principal :=
  match token.splitOn 46 with
  | [h, c, s] =>
    match d.base64 h with
    | none => .error (.malformed "header is not base64url")
    | some json =>
      match d.header json with
      | none => .error (.malformed "header is not JSON")
      | some hdr =>
        if hdr.alg ≠ "HS256" then .error (.badSignature "unsupported alg")
        else
          match v.keyFor hdr.kid with
          | none => .error (.unknownKeyID hdr.kid)
          | some key =>
            match d.base64 s with
            | none => .error (.malformed "signature is not base64url")
            | some signature =>
              if signature ≠ mac key.secret (h ++ 46 :: c) then .error (.badSignature "")
              else
                match d.base64 c with
                | none => .error (.malformed "claims are not base64url")
                | some json =>
                  match d.claims json with
                  | none => .error (.malformed "claims are not JSON")
                  | some claims => v.accept claims now
  | _ => .error (.malformed "")

inductive Op where
  | addKey (k : SigningKey)
  | removeKey (id : String)

def step (v : Verifier) : Op → Option Verifier
  | .addKey k => some ((v.addKey k).toOption.getD v)
  | .removeKey id => some (v.removeKey id)

def Step (v : Verifier) (op : Op) (v' : Verifier) : Prop := v.step op = some v'

def Registered (v : Verifier) (k : SigningKey) : Prop := v.keys[k.id]? = some k

def Carries (d : Decoding) (token : Bytes) (kid : String) : Prop :=
  ∃ h c s json hdr, token.splitOn 46 = [h, c, s] ∧ d.base64 h = some json ∧
    d.header json = some hdr ∧ hdr.kid = kid

def SignedWith (d : Decoding) (mac : Bytes → Bytes → Bytes) (token secret : Bytes) : Prop :=
  ∃ h c s, token.splitOn 46 = [h, c, s] ∧ d.base64 s = some (mac secret (h ++ 46 :: c))

theorem verifyAt_ok (hok : verifyAt d mac v token now = .ok p) : ∃ kid key,
    Carries d token kid ∧ v.keyFor kid = some key ∧ SignedWith d mac token key.secret := by
  unfold verifyAt at hok
  split at hok
  · rename_i h c s hs
    split at hok
    · cases hok
    rename_i json hj
    split at hok
    · cases hok
    rename_i hdr hh
    split at hok
    · cases hok
    split at hok
    · cases hok
    rename_i key hk
    split at hok
    · cases hok
    rename_i signature hsig
    split at hok
    · cases hok
    rename_i heq
    rw [Decidable.not_not] at heq
    exact ⟨hdr.kid, key, ⟨h, c, s, json, hdr, hs, hj, hh, rfl⟩, hk, h, c, s, hs, heq ▸ hsig⟩
  · cases hok

def Keyed (t : TreeMap String SigningKey) : Prop :=
  ∀ (name : String) (k : SigningKey), t[name]? = some k → k.id = name

theorem Keyed.insert (h : Keyed t) (k : SigningKey) : Keyed (t.insert k.id k) := by
  intro name k' hk
  rcases insert_cases hk with ⟨rfl, rfl⟩ | ⟨-, hk⟩
  · rfl
  · exact h name k' hk

theorem Keyed.new {ks : List SigningKey} {iss : String} (h : Verifier.new ks iss lw = .ok v) :
    Keyed v.keys := by
  unfold Verifier.new at h
  split at h
  · cases h
  split at h
  · cases h
  cases h
  refine List.foldlRecOn (motive := Keyed) _ _ ?_ (fun t ht k _ => ht.insert k)
  intro name k hk
  rw [TreeMap.getElem?_emptyc] at hk
  cases hk

theorem Keyed.step (h : Keyed v.keys) (hs : Verifier.step v op = some v') : Keyed v'.keys := by
  cases op with
  | addKey k =>
    cases hs
    unfold addKey
    split
    · exact h
    · exact h.insert k
  | removeKey id =>
    cases hs
    exact fun name k hk => h name k (getElem?_of_erase hk)

/-- A token without a key id is checked with the key that stood first, so that this
key has to be registered still. An accepted token was then signed with the secret of
a registered key, that of its key id if it carries one; and a secret that alone
signed it is that of a registered key. -/
theorem retired_keys_verify_nothing (d : Decoding) (mac : Bytes → Bytes → Bytes)
    {keys : List SigningKey} {issuer : String} {leeway : Int} {v₀ v : Verifier} {ops : List Op}
    (hnew : Verifier.new keys issuer leeway = .ok v₀) (hr : Run Step always v₀ ops v)
    {token : Bytes} {now : Int} {p : Principal} (hok : v.verifyAt d mac token now = .ok p)
    (hfallback : Carries d token "" → v.Registered v.fallback) :
    (∃ kid key, Carries d token kid ∧ v.Registered key ∧ (kid ≠ "" → key.id = kid) ∧
      SignedWith d mac token key.secret) ∧ ∀ secret, (∀ s, SignedWith d mac token s → s = secret) →
      ∃ key, v.Registered key ∧ key.secret = secret := by
  have hkeyed := hr.invariant (Keyed ·.keys) (.new hnew) (fun _ _ _ hi _ hs => hi.step hs)
  obtain ⟨kid, key, hc, hk, hsigned⟩ := verifyAt_ok hok
  have hreg : v.Registered key ∧ (kid ≠ "" → key.id = kid) := by
    unfold keyFor at hk
    split at hk
    · have hid := hkeyed kid key hk
      subst hid
      exact ⟨hk, fun _ => rfl⟩
    · rename_i he
      rw [Decidable.not_not] at he
      subst he
      cases hk
      exact ⟨hfallback hc, fun hne => absurd rfl hne⟩
  exact ⟨⟨kid, key, hc, hreg.1, hreg.2, hsigned⟩,
    fun secret honly => ⟨key, hreg.1, honly _ hsigned⟩⟩

def oldKey : SigningKey := ⟨"old", List.replicate 32 1⟩

def newKey : SigningKey := ⟨"new", List.replicate 32 2⟩

def plainly : Decoding where
  base64 b := some (b.map (fun x => if x = 47 then 46 else x))
  header _ := some ⟨"HS256", ""⟩
  claims _ := some { subject := [7] }

def signedBy (k : SigningKey) : Bytes := [46, 46] ++ k.secret ++ [47]

theorem retired_keys_verify_nothing_rotating : ∃ v₀ v p, new [oldKey] "" 0 = .ok v₀ ∧
    Run Step always v₀ [.addKey newKey] v ∧
    v.verifyAt plainly (· ++ ·) (signedBy oldKey) 5 = .ok p ∧
    ∃ key, v.Registered key ∧ SignedWith plainly (· ++ ·) (signedBy oldKey) key.secret := by
  obtain ⟨v, hr, hreg, hok⟩ := Run.executed always step
    ⟨(∅ : TreeMap String SigningKey).insert "old" oldKey, oldKey, "", 60 * 10 ^ 9, ∅⟩ [.addKey newKey]
    (fun v => v.keys[v.fallback.id]? = some v.fallback ∧
      v.verifyAt plainly (· ++ ·) (signedBy oldKey) 5 =
        .ok { userID := [7], scopes := ["publish", "subscribe", "presence"].map nameBytes })
    (by decide +kernel)
  have hnew : new [oldKey] "" 0 = .ok
      ⟨(∅ : TreeMap String SigningKey).insert "old" oldKey, oldKey, "", 60 * 10 ^ 9, ∅⟩ := rfl
  obtain ⟨⟨kid, key, -, hk, -, hs⟩, -⟩ :=
    retired_keys_verify_nothing plainly (· ++ ·) hnew hr hok (fun _ => hreg)
  exact ⟨_, v, _, hnew, hr, hok, key, hk, hs⟩

/-- The first key is removed, and a token signed with it alone is accepted. -/
theorem retired_key_verifies : ∃ v₀ v p, new [oldKey] "" 0 = .ok v₀ ∧
    Run Step always v₀ [.addKey newKey, .removeKey "old"] v ∧
    v.verifyAt plainly (· ++ ·) (signedBy oldKey) 5 = .ok p ∧
    (∀ s, SignedWith plainly (· ++ ·) (signedBy oldKey) s → s = oldKey.secret) ∧
    ∀ key, v.Registered key → key.secret ≠ oldKey.secret := by
  obtain ⟨v, hr, hkeys, hok⟩ := Run.executed always step
    ⟨(∅ : TreeMap String SigningKey).insert "old" oldKey, oldKey, "", 60 * 10 ^ 9, ∅⟩
    [.addKey newKey, .removeKey "old"]
    (fun v => v.keys.toList = [("new", newKey)] ∧
      v.verifyAt plainly (· ++ ·) (signedBy oldKey) 5 =
        .ok { userID := [7], scopes := ["publish", "subscribe", "presence"].map nameBytes })
    (by decide +kernel)
  refine ⟨_, v, _, rfl, hr, hok, ?_, ?_⟩
  · rintro s ⟨h, c, t, hsplit, hb⟩
    have hparts : (signedBy oldKey).splitOn 46 = [[], [], oldKey.secret ++ [47]] := by decide +kernel
    cases hparts.symm.trans hsplit
    have hread : plainly.base64 (oldKey.secret ++ [47]) = some (oldKey.secret ++ [46]) := by
      decide +kernel
    exact (List.append_cancel_right (Option.some.inj (hread.symm.trans hb))).symm
  · intro key hreg
    have hmem := TreeMap.mem_toList_iff_getElem?_eq_some.mpr hreg
    rw [hkeys, List.mem_singleton] at hmem
    rw [(Prod.mk.inj hmem).2]
    decide

end Verifier
end Boltq.Identity
