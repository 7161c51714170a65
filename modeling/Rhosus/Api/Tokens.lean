import Rhosus.Registry.Handlers

/-!
# Tokens

`TokenStore` gives out tokens and takes those back whose lifetime has ended, and `AuthMiddleware`
lets a request pass that carries one. The lifetime and the time of creation are kept in milliseconds
and compared with the time in seconds. So a token is good at all times until its lifetime ends, and
for a long time after that (`lifetime_iff`).
-/

namespace Rhosus.Api

open Registry

section Time

/-- A second. Instants are nanoseconds since 1970, and durations are nanoseconds. -/
def second : ℤ := 10 ^ 9

/-- `Time.Unix` -/
def unix (t : ℤ) : ℤ := t / 10 ^ 9

/-- `Time.UnixMilli` -/
def unixMilli (t : ℤ) : ℤ := t / 10 ^ 6

/-- `Duration.Milliseconds` -/
def milliseconds (d : ℤ) : ℤ := d.tdiv (10 ^ 6)

end Time

section TokenStore

/-- `ok` tells whether the backend takes the token. -/
def createToken (pb : Codecs) (tokenStr : Bytes) (ttl now : ℤ) (ok : Bool) (s : Storage) :
    Except Err Token × Storage :=
  let token : Token :=
    { id := tokenStr
      authEngine := []
      parent := []
      accessor := tokenStr
      ttl := milliseconds ttl
      creationTime := unixMilli now
      policies := []
      role := []
      root := false }
  match s.storeToken pb token ok with
  | (.error e, s) => (.error e, s)
  | (.ok _, s) => (.ok token, s)

/-- `token.Ttl+token.CreationTime < time.Now().Unix()`, a sum of `int64`s. -/
def expired (now : ℤ) (token : Token) : Bool :=
  Int.bmod (token.ttl + token.creationTime) (2 ^ 64) < unix now

/-- One round of `watchForTokensExpiration`. An error is only logged. -/
def watchForTokensExpiration (now : ℤ) (ok : Token → Bool) (s : Storage) : Storage :=
  s.listTokens.foldl (fun s token =>
    if expired now token then (s.revokeToken token (ok token)).2 else s) s

end TokenStore

section Middleware

inductive Verdict
  | pass
  | unauthorized (message : String)
  deriving DecidableEq

/-- `sys/login` -/
def login : Bytes := "sys/login".toUTF8.toList

/-- `sys/create-test-user` -/
def createTestUser : Bytes := "sys/create-test-user".toUTF8.toList

/-- The paths that are served without a token. -/
def exempt (path : Bytes) : Bool := trim path = login || trim path = createTestUser

/-- What becomes of a request to the path with this `X-Rhosus-Token`, which is empty where there is
none. -/
def authMiddleware (now : ℤ) (s : Storage) (path clientToken : Bytes) : Verdict :=
  if exempt path then .pass
  else if clientToken = [] then .unauthorized "missing client token"
  else
    match s.getToken clientToken with
    | none => .unauthorized "invalid client token"
    | some token => if expired now token then .unauthorized "invalid client token" else .pass

end Middleware

/-- A token is good until its lifetime `ttl` from `t0` has ended, and neither a second later. -/
structure Lifetime (s : Storage) (token : Token) (ttl t0 t : ℤ) : Prop where
  passes : t - t0 < ttl → ∀ path, exempt path = false →
    authMiddleware t s path token.accessor = .pass
  rejects : ttl + second ≤ t - t0 → ∀ path, exempt path = false →
    authMiddleware t s path token.accessor ≠ .pass
  keeps : ∀ ok, (watchForTokensExpiration t ok s).getToken token.accessor = none → ttl < t - t0
  revokes : ttl + second ≤ t - t0 → ∀ ok,
    (watchForTokensExpiration t ok s).getToken token.accessor = none

section Watch

variable {s : Storage} {now : ℤ}

theorem getToken_revokeToken (token : Token) (ok : Bool) (s : Storage) (k : Bytes) :
    (s.revokeToken token ok).2.getToken k = if token.id = k then none else s.getToken k := by
  have hremove : ∀ (s : Storage) (keys : List Bytes),
      (s.remove .token keys ok).getToken k = s.getToken k := by
    intro s keys
    unfold Storage.remove
    split_ifs <;> rfl
  unfold Storage.revokeToken
  split
  · rename_i hd
    split_ifs with hk
    · subst hk
      unfold Table.delete at hd
      split at hd
      · assumption
      · cases hd
    · rfl
  · rename_i tokens hd
    obtain ⟨old, -, rfl⟩ := Table.delete_eq_some hd
    rw [hremove]
    exact OrdMap.get_erase ..

theorem getToken_foldl (ok : Token → Bool) (k : Bytes) : ∀ (tokens : List Token) (s : Storage),
    (tokens.foldl (fun s token =>
      if expired now token then (s.revokeToken token (ok token)).2 else s) s).getToken k
      = if ∃ token ∈ tokens, expired now token ∧ token.id = k then none else s.getToken k
  | [], s => by simp
  | token :: tokens, s => by
    rw [List.foldl_cons, getToken_foldl ok k tokens]
    simp only [List.exists_mem_cons_iff]
    by_cases hlater : ∃ token ∈ tokens, expired now token ∧ token.id = k
    · rw [if_pos hlater, if_pos (.inr hlater)]
    rw [if_neg hlater]
    by_cases hexp : expired now token = true
    · rw [if_pos hexp, getToken_revokeToken]
      exact if_congr ⟨fun h => .inl ⟨hexp, h⟩, fun h => (h.resolve_right hlater).2⟩ rfl rfl
    · rw [if_neg hexp, if_neg (not_or.mpr ⟨fun h => hexp h.1, hlater⟩)]

theorem getToken_watch (hs : s.tokens.Sound tokensTable) (now : ℤ) (ok : Token → Bool) {k : Bytes}
    {token : Token} (ht : s.getToken k = some token) :
    (watchForTokensExpiration now ok s).getToken k = none ↔ expired now token = true := by
  rw [watchForTokensExpiration, getToken_foldl, ht]
  have hiff : (∃ token ∈ s.listTokens, expired now token ∧ token.id = k)
      ↔ expired now token = true := by
    constructor
    · rintro ⟨other, hmem, hexp, hid⟩
      obtain ⟨k', hk'⟩ := OrdMap.mem_vals.mp hmem
      have hkey : k' = k := (hs.id hk').symm.trans hid
      rw [hkey, show s.tokens.byId[k]? = some token from ht] at hk'
      rwa [Option.some.inj hk']
    · exact fun hexp => ⟨token, OrdMap.mem_vals.mpr ⟨k, ht⟩, hexp, hs.id ht⟩
  rw [if_congr hiff rfl rfl]
  split_ifs with hexp <;> simp [hexp]

theorem authMiddleware_pass_iff (now : ℤ) (path : Bytes) {k : Bytes} {token : Token}
    (hpath : exempt path = false) (hs : s.tokens.Sound tokensTable)
    (ht : s.getToken k = some token) :
    authMiddleware now s path k = .pass ↔ expired now token = false := by
  have hk : k ≠ [] := by
    obtain ⟨hhas, hid⟩ := hs.byId_iff.mp ht
    exact hid ▸ (hs.full hhas).1
  unfold authMiddleware
  rw [hpath, if_neg Bool.false_ne_true, if_neg hk, ht]
  dsimp only
  split_ifs with hexp <;> simp [hexp]

end Watch

/-- While a token is to be good, and for a second, the sum of its times in milliseconds is past the
time in seconds. -/
theorem unix_le_of_lt {ttl t0 t : ℤ} (httl : second ≤ ttl) (h0 : 0 ≤ t0)
    (ht : t - t0 < ttl + second) : unix t ≤ unixMilli t0 + milliseconds ttl := by
  unfold second at httl ht
  unfold unix unixMilli milliseconds
  rw [Int.tdiv_eq_ediv_of_nonneg (by omega)]
  omega

theorem expired_iff {pb : Codecs} {tokenStr : Bytes} {ttl t0 : ℤ} {ok : Bool} {s s' : Storage}
    {token : Token} (hcreate : createToken pb tokenStr ttl t0 ok s = (.ok token, s'))
    (httl : 0 ≤ ttl) (h0 : 0 ≤ t0) (hend : t0 + ttl < 2 ^ 63 * 10 ^ 6) (t : ℤ) :
    expired t token = true ↔ unixMilli t0 + milliseconds ttl < unix t := by
  have htoken : token.ttl = milliseconds ttl ∧ token.creationTime = unixMilli t0 := by
    unfold createToken at hcreate
    dsimp only at hcreate
    split at hcreate <;> cases hcreate
    exact ⟨rfl, rfl⟩
  have hsum : 0 ≤ milliseconds ttl + unixMilli t0
      ∧ milliseconds ttl + unixMilli t0 < 2 ^ 63 := by
    unfold milliseconds unixMilli
    rw [Int.tdiv_eq_ediv_of_nonneg httl]
    omega
  rw [expired, htoken.1, htoken.2, Int.bmod_eq_of_le (by omega) (by omega), decide_eq_true_eq,
    add_comm]

/-- A token that has not been revoked is good until the end of its lifetime, and not from a second
after it on, if and only if that second has not passed, or so much time that the seconds since 1970
are more than the milliseconds to the end of the lifetime were. -/
theorem lifetime_iff (pb : Codecs) (tokenStr : Bytes) (ttl t0 t : ℤ) (ok : Bool)
    (s₀ s₁ s : Storage) (token : Token)
    (hcreate : createToken pb tokenStr ttl t0 ok s₀ = (.ok token, s₁))
    (hs : s.tokens.Sound tokensTable) (hstored : s.getToken token.accessor = some token)
    (httl : second ≤ ttl) (h0 : 0 ≤ t0) (hend : t0 + ttl < 2 ^ 63 * 10 ^ 6) :
    Lifetime s token ttl t0 t
      ↔ t - t0 < ttl + second ∨ unixMilli t0 + milliseconds ttl < unix t := by
  have hpos : 0 ≤ ttl := le_trans (by decide) httl
  have hexp := expired_iff hcreate hpos h0 hend t
  have hwatch := fun ok => getToken_watch hs t ok hstored
  have hauth := fun path hpath => authMiddleware_pass_iff t path hpath hs hstored
  constructor
  · intro h
    refine or_iff_not_imp_left.mpr fun hlate => hexp.mp ?_
    exact (hwatch fun _ => true).mp (h.revokes (not_lt.mp hlate) _)
  · intro h
    have hgood : t - t0 < ttl + second → expired t token = false := fun ht => by
      rw [← Bool.not_eq_true, hexp]
      exact not_lt.mpr (unix_le_of_lt httl h0 ht)
    have hbad : ttl + second ≤ t - t0 → expired t token = true := fun ht =>
      hexp.mpr (h.resolve_left (not_lt.mpr ht))
    refine ⟨fun ht path hpath => (hauth path hpath).mpr (hgood ?_), fun ht path hpath => ?_,
      fun ok hgone => ?_, fun ht ok => (hwatch ok).mpr (hbad ht)⟩
    · exact ht.trans_le (le_add_of_nonneg_right (by decide))
    · rw [Ne, hauth path hpath, hbad ht]
      decide
    · by_contra hearly
      have hsecond : ttl < ttl + second := lt_add_of_pos_right _ (by decide)
      have := hgood ((not_lt.mp hearly).trans_lt hsecond)
      rw [(hwatch ok).mp hgone] at this
      cases this

section Witness

/-- Half an hour, as `Login` asks for. -/
def halfAnHour : ℤ := 30 * 60 * second

/-- A time of creation: 10⁹ seconds after the start of 1970. -/
def someTime : ℤ := 10 ^ 9 * second

theorem sound_createToken (pb : Codecs) (tokenStr : Bytes) (ttl now : ℤ) (ok : Bool) {s : Storage}
    (hs : s.tokens.Sound tokensTable) :
    (createToken pb tokenStr ttl now ok s).2.tokens.Sound tokensTable := by
  unfold createToken Storage.storeToken
  dsimp only
  split <;> rename_i heq <;> split at heq
  · obtain rfl := (Prod.mk.inj heq).2
    exact hs
  · rename_i tokens hi
    cases ok <;> cases heq
    exact hs.insert hi
  · cases heq
  · rename_i tokens hi
    cases ok <;> cases heq
    exact hs.insert hi

def someToken : Token := ⟨[1], [], [], [1], 1800000, 10 ^ 12, [], [], false⟩

/-- A storage with that token in it. -/
noncomputable def oneToken : Storage :=
  (createToken someCodecs [1] halfAnHour someTime true .empty).2

theorem createToken_oneToken :
    createToken someCodecs [1] halfAnHour someTime true .empty = (.ok someToken, oneToken) :=
  Prod.ext rfl rfl

/-- A minute after its creation a token is good. -/
theorem lifetime_iff_minute :
    Lifetime oneToken someToken halfAnHour someTime (someTime + 60 * second) :=
  (lifetime_iff someCodecs [1] halfAnHour someTime (someTime + 60 * second) true .empty oneToken
    oneToken someToken createToken_oneToken (sound_createToken _ _ _ _ _ Table.sound_empty)
    (by decide +kernel) (by decide) (by decide) (by decide)).mpr (.inl (by decide))

def tenYears : ℤ := 10 * 365 * 24 * 60 * 60 * second

/-- Ten years after its creation, the token is still good. -/
theorem not_lifetime_tenYears :
    ¬ Lifetime oneToken someToken halfAnHour someTime (someTime + tenYears)
      ∧ authMiddleware (someTime + tenYears) oneToken [47, 97] [1] = .pass := by
  have hpass : authMiddleware (someTime + tenYears) oneToken [47, 97] [1] = .pass := by
    decide +kernel
  exact ⟨fun h => h.rejects (by decide) [47, 97] (by decide +kernel) hpass, hpass⟩

end Witness

end Rhosus.Api
