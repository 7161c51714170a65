import Rhosus.Api.Server

/-!
# Sessions

Whatever the server does in between, the token of a request that is admitted goes back to a login as
the test user (`access_traced`), and one that was revoked is refused from then on
(`revoked_refused`). But anyone can make the user and log in as it, in whatever state the server is,
and is admitted with the token for half an hour (`anyone_admitted`).

A handler runs as one step here: it is not divided between the memory and the backend, which it
writes one after the other.
-/

namespace Rhosus.Api

open Registry

/-- A token that goes back to a login as the test user: it was made when someone logged in by a
password that is right for a hash made before, or for a request with such a token. -/
inductive Traced (env : ApiEnv) : List Event → Bytes → Prop
  | login {history before : List Event} {req req' : Request} {given given' : Given}
      {reply reply' : Reply} {l : LoginRequest} {password : Bytes}
      (hlogin : before ++ [.served req' .login given' reply'] <+: history)
      (huser : .served req .createTestUser given reply ∈ before)
      (hbody : given'.loginRequest = some l) (hname : l.data[nameKey]? = some egor)
      (hpassword : l.data[passwordKey]? = some password)
      (hright : env.bcrypt.compareHashAndPassword (given.passw env) password = true) :
      Traced env history (generateSecureToken given'.token)
  | request {history before : List Event} {req : Request} {given : Given} {reply : Reply}
      (hserved : before ++ [.served req .createToken given reply] <+: history)
      (hparent : Traced env before req.clientToken) :
      Traced env history (generateSecureToken given.token)

section Trace

variable {env : ApiEnv} {a a' : Server} {act : Act}

theorem Traced.mono {history history' : List Event} {token : Bytes} (h : Traced env history token)
    (hle : history <+: history') : Traced env history' token := by
  cases h with
  | login hlogin huser hbody hname hpassword hright =>
    exact .login (hlogin.trans hle) huser hbody hname hpassword hright
  | request hserved hparent => exact .request (hserved.trans hle) hparent

/-- A role that was stored as the test user. -/
def IsTestUser (env : ApiEnv) (history : List Event) (role : Role) : Prop :=
  role.name = egor ∧ ∃ req given reply, .served req .createTestUser given reply ∈ history
    ∧ role.password = given.passw env

theorem IsTestUser.mono {history history' : List Event} {role : Role}
    (h : IsTestUser env history role) (hle : history <+: history') :
    IsTestUser env history' role := by
  obtain ⟨hname, req, given, reply, hserved, hpassw⟩ := h
  exact ⟨hname, req, given, reply, hle.subset hserved, hpassw⟩

/-- What holds at every moment. -/
structure Inv (env : ApiEnv) (a : Server) : Prop where
  tokens : TokensAre env.pb.toCodecs (Traced env a.history) a.storage.toStorage
  roles : RolesAre env (IsTestUser env a.history) a.storage
  admitted : ∀ x ∈ a.admitted, x.2 = route x.1.method x.1.path
    ∧ (exempt x.1.path = true ∨ Traced env a.history x.1.clientToken)
  arrivals : ∀ before req h, before ++ [.arrived req (.handled h)] <+: a.history →
    exempt req.path = true ∨ Traced env before req.clientToken

theorem inv_empty (env : ApiEnv) : Inv env .empty where
  tokens := Backed.empty
  roles := Backed.empty
  admitted _ h := absurd h List.not_mem_nil
  arrivals before req h hle := by
    have := hle.length_le
    simp [Server.empty] at this

theorem Inv.arrive (h : Inv env a) (req : Request) (now : ℤ)
    (hstep : Server.step env (.arrive req now) a = some a') : Inv env a' := by
  have hle : ∀ ev, a.history <+: a.history ++ [ev] := fun ev => List.prefix_append ..
  have hadmits : ∀ hd, serveHTTP now a.storage.toStorage req = .handled hd →
      hd = route req.method req.path
        ∧ (exempt req.path = true ∨ Traced env a.history req.clientToken) := fun hd hhandled =>
    (handled_cases hhandled).imp_right fun hcases =>
      hcases.imp_right fun ⟨_, htoken⟩ => h.tokens.getToken htoken
  have harrivals : ∀ before req' hd,
      before ++ [.arrived req' (.handled hd)]
        <+: a.history ++ [.arrived req (serveHTTP now a.storage.toStorage req)] →
      exempt req'.path = true ∨ Traced env before req'.clientToken := by
    intro before req' hd hbefore
    rcases List.prefix_concat_iff.mp hbefore with heq | hbefore
    · obtain ⟨rfl, hev⟩ := List.append_inj' heq rfl
      obtain ⟨rfl, hresponse⟩ := Event.arrived.inj (List.singleton_inj.mp hev)
      exact (hadmits hd hresponse.symm).2
    · exact h.arrivals before req' hd hbefore
  have hkept : ∀ x ∈ a.admitted, x.2 = route x.1.method x.1.path ∧ (exempt x.1.path = true
      ∨ Traced env (a.history ++ [.arrived req (serveHTTP now a.storage.toStorage req)])
        x.1.clientToken) := fun x hx =>
    (h.admitted x hx).imp_right fun hx => hx.imp_right fun htraced => htraced.mono (hle _)
  have htokens := h.tokens.mono fun token htoken => htoken.mono
    (hle (.arrived req (serveHTTP now a.storage.toStorage req)))
  have hroles := h.roles.mono fun role hrole => hrole.mono
    (hle (.arrived req (serveHTTP now a.storage.toStorage req)))
  unfold Server.step at hstep
  dsimp only at hstep
  split at hstep <;> obtain rfl := Option.some.inj hstep
  · rename_i hd hhandled
    refine ⟨htokens, hroles, fun x hx => ?_, harrivals⟩
    rcases List.mem_append.mp hx with hx | hx
    · exact hkept x hx
    · obtain rfl := List.mem_singleton.mp hx
      exact (hadmits hd hhandled).imp_right fun hcases => hcases.imp_right fun htraced =>
        htraced.mono (hle _)
  · exact ⟨htokens, hroles, hkept, harrivals⟩

theorem Inv.serve (h : Inv env a) (i : ℕ) (given : Given)
    (hstep : Server.step env (.serve i given) a = some a') : Inv env a' := by
  obtain ⟨req, hd, reply, a₁, hi, hserve, rfl⟩ := serve_step_cases hstep
  have hle : a.history <+: a.history ++ [.served req hd given reply] := List.prefix_append ..
  obtain ⟨hroute, hfrom⟩ := h.admitted _ (List.mem_of_getElem? hi)
  have hissues : Issues env given a.storage hd →
      Traced env (a.history ++ [.served req hd given reply]) (generateSecureToken given.token) := by
    intro hissues
    cases hd with
    | createToken =>
      rw [not_exempt_createToken hroute.symm] at hfrom
      exact .request (List.prefix_refl _) (hfrom.resolve_left Bool.false_ne_true)
    | login =>
      obtain ⟨l, name, password, role, hbody, hname, hpassword, hrole, hright⟩ := hissues
      obtain ⟨⟨hegor, req', given', reply', huser, hpassw⟩, rfl⟩ := h.roles.getRole hrole
      exact .login (List.prefix_refl _) huser hbody (hegor ▸ hname) hpassword (hpassw ▸ hright)
    | _ => exact hissues.elim
  have htokens := (h.tokens.mono fun k htraced => htraced.mono hle).go
    (serve_tokensGo (R := fun _ => True) hserve hissues fun _ _ _ => trivial)
  have hroles := (h.roles.mono fun role hrole => hrole.mono hle).serve hserve fun huser => by
    subst huser
    exact ⟨rfl, req, given, reply, by simp, rfl⟩
  refine ⟨htokens, hroles, fun x hx => ?_, fun before req' hd' hbefore => ?_⟩
  · exact (h.admitted x (List.mem_of_mem_eraseIdx hx)).imp_right fun hx =>
      hx.imp_right fun htraced => htraced.mono hle
  · rcases List.prefix_concat_iff.mp hbefore with heq | hbefore
    · cases List.singleton_inj.mp (List.append_inj' heq rfl).2
    · exact h.arrivals before req' hd' hbefore

theorem Inv.step (h : Inv env a) (hstep : Server.step env act a = some a') : Inv env a' := by
  cases act with
  | arrive req now => exact h.arrive req now hstep
  | serve i given => exact h.serve i given hstep
  | expire now ok =>
    obtain rfl := Option.some.inj hstep
    exact ⟨h.tokens.revokeEach _, h.roles, h.admitted, h.arrivals⟩
  | restart =>
    obtain rfl := Option.some.inj hstep
    exact ⟨Backed.load h.tokens, Backed.load h.roles, fun _ hx => absurd hx List.not_mem_nil,
      h.arrivals⟩

end Trace

section Revoke

variable {env : ApiEnv} {a a' : Server} {act : Act} {k : Bytes}

/-- The act takes back the token, and the backend lets go of it. -/
def Act.Revokes (k : Bytes) (a : Server) : Act → Prop
  | .serve i given => ∃ req fate token, a.admitted[i]? = some (req, .revokeToken)
      ∧ given.work = [(.revokeToken k, fate)] ∧ fate.put = true
      ∧ a.storage.getToken k = some token
  | .expire now ok => ∃ token, a.storage.getToken k = some token ∧ expired now token = true
      ∧ ok token = true
  | _ => False

/-- The token is not drawn for another. -/
def Act.Spares (k : Bytes) : Act → Prop
  | .serve _ given => generateSecureToken given.token ≠ k
  | _ => True

theorem TokensAre.revokes {P : Bytes → Prop}
    (h : TokensAre env.pb.toCodecs P a.storage.toStorage) (hrevokes : act.Revokes k a)
    (hstep : Server.step env act a = some a') :
    TokensAre env.pb.toCodecs (· ≠ k) a'.storage.toStorage := by
  cases act with
  | serve i given =>
    obtain ⟨req, fate, token, hi, hwork, hput, htoken⟩ := hrevokes
    obtain ⟨hhas, rfl⟩ := h.sound.byId_iff.mp htoken
    obtain ⟨req', hd, reply, a₁, hi', hserve, rfl⟩ := serve_step_cases hstep
    obtain ⟨rfl, rfl⟩ := Prod.mk.inj (Option.some.inj (hi.symm.trans hi'))
    rcases serve_cases hserve with ⟨hd, -⟩ | ⟨hd, -⟩ | ⟨r, -, hrun, rfl⟩
    · cases hd
    · cases hd
    rw [hwork] at hrun
    obtain rfl := Option.some.inj hrun
    have hgone := h.revokeToken_ne htoken
    rw [← hput] at hgone
    unfold handleRevokeToken
    rw [htoken]
    dsimp only
    split <;> rename_i storage hs <;> rw [hs] at hgone
    · exact hgone
    · rw [Leader.writeEntry_storage]
      exact hgone
  | expire now ok =>
    obtain ⟨token, htoken, hexp, hok⟩ := hrevokes
    obtain ⟨hhas, rfl⟩ := h.sound.byId_iff.mp htoken
    obtain rfl := Option.some.inj hstep
    refine h.revokeEach_ne hexp hok _ htoken (OrdMap.mem_vals.mpr ⟨_, htoken⟩) fun t ht hid => ?_
    obtain ⟨k, hk⟩ := OrdMap.mem_vals.mp ht
    obtain ⟨hhas', -⟩ := h.sound.byId_iff.mp hk
    rw [Table.Has, show tokensTable.id t = tokensTable.id token from hid] at hhas'
    exact Option.some.inj (hhas'.symm.trans htoken)
  | _ => exact hrevokes.elim

theorem TokensAre.step_ne (h : TokensAre env.pb.toCodecs (· ≠ k) a.storage.toStorage)
    (hspares : act.Spares k) (hstep : Server.step env act a = some a') :
    TokensAre env.pb.toCodecs (· ≠ k) a'.storage.toStorage
      ∧ ∃ after, a'.history = a.history ++ after ∧ ∀ req hd,
        .arrived req (.handled hd) ∈ after → req.clientToken = k → exempt req.path = true := by
  cases act with
  | arrive req now =>
    have hrefuses : ∀ req' hd, Event.arrived req' (.handled hd)
        ∈ [Event.arrived req (serveHTTP now a.storage.toStorage req)] →
        req'.clientToken = k → exempt req'.path = true := by
      rintro req' hd hmem rfl
      obtain ⟨rfl, hresponse⟩ := Event.arrived.inj (List.mem_singleton.mp hmem)
      exact (handled_cases hresponse.symm).2.resolve_right fun ⟨_, htoken⟩ =>
        h.getToken htoken rfl
    unfold Server.step at hstep
    dsimp only at hstep
    split at hstep <;> obtain rfl := Option.some.inj hstep <;> exact ⟨h, _, rfl, hrefuses⟩
  | serve i given =>
    obtain ⟨req, hd, reply, a₁, -, hserve, rfl⟩ := serve_step_cases hstep
    have htokens := h.go
      (serve_tokensGo (R := fun _ => True) hserve (fun _ => hspares) fun _ _ _ => trivial)
    refine ⟨htokens, [.served req hd given reply], rfl, fun _ _ hmem => ?_⟩
    cases List.mem_singleton.mp hmem
  | expire now ok =>
    obtain rfl := Option.some.inj hstep
    exact ⟨h.revokeEach _, [], (List.append_nil _).symm, fun _ _ => nofun⟩
  | restart =>
    obtain rfl := Option.some.inj hstep
    exact ⟨Backed.load h, [], (List.append_nil _).symm, fun _ _ => nofun⟩

end Revoke

section Stay

variable {env : ApiEnv} {pb : Codecs} {a a' : Server} {act : Act} {s s' : Storage} {token : Token}

/-- The token is stored, in memory and in the backend. -/
def Stored (pb : Codecs) (token : Token) (s : Storage) : Prop :=
  Held tokensTable pb.token.unmarshal token s.tokens (s.backend .token)

theorem Stored.storeToken (h : Stored pb token s) {other : Token} (hne : other.id ≠ token.id)
    (ok : Bool) : Stored pb token (s.storeToken pb other ok).2 := by
  unfold Storage.storeToken
  rcases hi : s.tokens.insert tokensTable other with _ | tokens
  · exact h
  have hins := Held.insert h hi hne
  cases ok
  · exact hins
  · exact hins.put hne _

theorem Stored.revokeToken (h : Stored pb token s) {other : Token} (hne : other.id ≠ token.id)
    (ok : Bool) : Stored pb token (s.revokeToken other ok).2 := by
  unfold Storage.revokeToken
  rcases hd : s.tokens.delete tokensTable other with _ | tokens
  · exact h
  have hdel := Held.delete h hd hne
  cases ok
  · exact hdel
  · exact hdel.erase hne

theorem Stored.go (hs : TokensAre pb (fun _ => True) s) (h : Stored pb token s)
    (hgo : TokensGo pb (· ≠ token.id) (· ≠ token.id) s s') :
    TokensAre pb (fun _ => True) s' ∧ Stored pb token s' := by
  induction hgo with
  | same hsame =>
    refine ⟨hsame.tokensAre hs, ?_⟩
    rw [Stored, hsame.1, hsame.2]
    exact h
  | store other ok hne => exact ⟨hs.storeToken other trivial ok, h.storeToken hne ok⟩
  | revoke ok hk hne =>
    obtain ⟨-, rfl⟩ := hs.sound.byId_iff.mp hk
    exact ⟨hs.revokeToken _ ok, h.revokeToken hne ok⟩
  | trans _ _ ih ih' => exact ih' (ih hs h).1 (ih hs h).2

theorem Stored.revokeEach {now : ℤ} {ok : Token → Bool} (hlive : expired now token = false) :
    ∀ (tokens : List Token) {s : Storage}, (∀ t ∈ tokens, t.id = token.id → t = token) →
      Stored pb token s → Stored pb token (tokens.foldl (fun s token =>
        if expired now token then (s.revokeToken token (ok token)).2 else s) s)
  | [], _, _, h => h
  | t :: tokens, s, honly, h => by
    rw [List.foldl_cons]
    refine revokeEach hlive tokens (fun t ht => honly t (List.mem_cons_of_mem _ ht)) ?_
    split_ifs with hexp
    · refine h.revokeToken (fun hid => ?_) _
      rw [honly t List.mem_cons_self hid, hlive] at hexp
      cases hexp
    · exact h

/-- The act neither draws the token again nor takes it back, and a round over the tokens comes
within half an hour. -/
def Act.Leaves (k : Bytes) (since : ℤ) : Act → Prop
  | .serve _ given => generateSecureToken given.token ≠ k
      ∧ ∀ fate, (.revokeToken k, fate) ∉ given.work
  | .expire now _ => now - since < halfAnHour
  | _ => True

theorem Stored.step {since : ℤ}
    (hlive : ∀ now, now - since < halfAnHour → expired now token = false)
    (hs : TokensAre env.pb.toCodecs (fun _ => True) a.storage.toStorage)
    (h : Stored env.pb.toCodecs token a.storage.toStorage) (hleaves : act.Leaves token.id since)
    (hstep : Server.step env act a = some a') :
    TokensAre env.pb.toCodecs (fun _ => True) a'.storage.toStorage
      ∧ Stored env.pb.toCodecs token a'.storage.toStorage := by
  cases act with
  | arrive req now =>
    unfold Server.step at hstep
    dsimp only at hstep
    split at hstep <;> obtain rfl := Option.some.inj hstep <;> exact ⟨hs, h⟩
  | serve i given =>
    obtain ⟨req, hd, reply, a₁, -, hserve, rfl⟩ := serve_step_cases hstep
    have hgo := serve_tokensGo (P := (· ≠ token.id)) (R := (· ≠ token.id)) hserve
      (fun _ => hleaves.1) fun k fate hmem hk => hleaves.2 fate (hk ▸ hmem)
    exact h.go hs hgo
  | expire now ok =>
    obtain rfl := Option.some.inj hstep
    refine ⟨hs.revokeEach _, h.revokeEach (hlive now hleaves) _ fun t ht hid => ?_⟩
    obtain ⟨k, hk⟩ := OrdMap.mem_vals.mp ht
    obtain ⟨hhas, -⟩ := hs.sound.byId_iff.mp hk
    rw [Table.Has, show tokensTable.id t = tokensTable.id token from hid] at hhas
    exact Option.some.inj (hhas.symm.trans h.row)
  | restart =>
    obtain rfl := Option.some.inj hstep
    exact ⟨Backed.load hs, Held.load h hs⟩

end Stay

section Anyone

variable {env : ApiEnv} {a a' : Server} {req : Request} {hd : Handler} {given given' : Given}

theorem arrive_run {now : ℤ} (h : serveHTTP now a.storage.toStorage req = .handled hd) :
    runSteps (Server.step env) [.arrive req now] a = some ⟨a.storage, a.log,
      a.admitted ++ [(req, hd)], a.history ++ [.arrived req (.handled hd)]⟩ := by
  rw [runSteps, Server.step]
  simp only [h]
  rfl

theorem visit_run {now : ℤ} (reply : Reply) (storage : FullStorage)
    (log : List (Cluster.EntryType × Bytes))
    (h : serveHTTP now a.storage.toStorage req = .handled hd)
    (hserve : ∀ admitted history,
      Server.serve env req hd given ⟨a.storage, a.log, admitted, history⟩
        = some (reply, ⟨storage, log, admitted, history⟩)) :
    runSteps (Server.step env) [.arrive req now, .serve a.admitted.length given] a
      = some ⟨storage, log, a.admitted,
        a.history ++ [.arrived req (.handled hd), .served req hd given reply]⟩ := by
  have herase : (a.admitted ++ [(req, hd)]).eraseIdx a.admitted.length = a.admitted := by
    rw [List.eraseIdx_append_of_length_le le_rfl, Nat.sub_self]
    simp
  refine runSteps_trans (arrive_run h) ?_
  rw [runSteps, Server.step]
  simp only [List.getElem?_concat_length, hserve, herase, List.append_assoc, List.singleton_append]
  rfl

theorem getRole_storeRole (pb : RoleCodecs) (o : Registry.Outcome) (s : FullStorage) {role : Role}
    (hid : role.id ≠ []) (hname : role.name ≠ []) :
    (s.storeRole pb o role).2.getRole role.name = some role := by
  obtain ⟨t, ht⟩ := Table.insert_of_full (S := rolesTable) (t := s.roles) (a := role)
    ⟨hid, fun .name => hname⟩
  unfold FullStorage.storeRole Shelf.store
  rw [Table.insertAll_singleton,
    show ((Shelf.roles pb).table s).insert (Shelf.roles pb).schema role = some t from ht]
  exact (Table.index_insert ht .name [role.name]).trans (if_pos (rolesTable_nameKey role))

theorem createToken_ok (pb : Codecs) {tokenStr : Bytes} (h : tokenStr ≠ []) (ttl now : ℤ)
    (s : Storage) : ∃ token s', createToken pb tokenStr ttl now true s = (.ok token, s')
      ∧ token.accessor = tokenStr ∧ token.id = tokenStr ∧ Stored pb token s' := by
  obtain ⟨t, ht⟩ := Table.insert_of_full (S := tokensTable) (t := s.tokens)
    (a := ⟨tokenStr, [], [], tokenStr, milliseconds ttl, unixMilli now, [], [], false⟩)
    ⟨h, fun .accessor => h⟩
  unfold createToken Storage.storeToken
  dsimp only
  rw [ht]
  exact ⟨_, _, rfl, rfl, rfl, (Table.byId_insert ht tokenStr).trans (if_pos rfl),
    ⟨h, fun .accessor => h⟩, _, (OrdMap.get_insert ..).trans (if_pos rfl),
    pb.token.unmarshal_marshal _⟩

def testUserRequest : Request := ⟨.post, slash :: createTestUser, [], false⟩

def loginPost : Request := ⟨.post, slash :: login, [], false⟩

def testLogin : LoginRequest where
  method := credentials
  data := ((∅ : OrdMap Bytes Bytes).insert nameKey egor).insert passwordKey mypassword

theorem serveHTTP_testUserRequest (now : ℤ) (s : Storage) :
    serveHTTP now s testUserRequest = .handled .createTestUser := by
  have hpath : exempt testUserRequest.path = true := by decide +kernel
  have hroute : route testUserRequest.method testUserRequest.path = .createTestUser := by
    decide +kernel
  rw [serveHTTP, authMiddleware, if_neg (by decide), if_pos hpath, hroute]

theorem serveHTTP_loginPost (now : ℤ) (s : Storage) :
    serveHTTP now s loginPost = .handled .login := by
  have hpath : exempt loginPost.path = true := by decide +kernel
  have hroute : route loginPost.method loginPost.path = .login := by decide +kernel
  rw [serveHTTP, authMiddleware, if_neg (by decide), if_pos hpath, hroute]

theorem prepareLoginRequest_testLogin : (prepareLoginRequest testLogin).username = egor
    ∧ (prepareLoginRequest testLogin).data[passwordKey]? = some mypassword := by
  have hne : nameKey ≠ passwordKey := by decide +kernel
  refine ⟨?_, ?_⟩
  · rw [prepareLoginRequest, testLogin, OrdMap.get_insert_of_ne hne.symm, OrdMap.get_insert,
      if_pos rfl]
    rfl
  · rw [data_prepareLoginRequest, testLogin, OrdMap.get_insert, if_pos rfl]

theorem compare_passw {salt : Bytes} (hsalt : given.salt = some salt) :
    env.bcrypt.compareHashAndPassword (given.passw env) mypassword = true := by
  obtain ⟨hash, hhash⟩ := Option.isSome_iff_exists.mp
    (env.bcrypt.isSome salt (show mypassword.length ≤ 72 by decide +kernel))
  rw [Given.passw, hsalt, Option.bind_some, hhash]
  exact env.bcrypt.compare hhash

/-- Who logs in as a test user that was stored is given the token that is drawn. -/
theorem handleLogin_testLogin {s : FullStorage} {salt tokenStr : Bytes}
    (hrole : s.getRole egor = some (given.testUser env)) (hsalt : given.salt = some salt)
    (hbody : given'.loginRequest = some testLogin) (hok : given'.ok = true)
    (htoken : generateSecureToken given'.token = tokenStr) (hne : tokenStr ≠ []) :
    ∃ token storage, createToken env.pb.toCodecs tokenStr halfAnHour given'.now true s.toStorage
        = (.ok token, storage) ∧ token.id = tokenStr ∧ Stored env.pb.toCodecs token storage
      ∧ handleLogin env given' s
        = (.login 200 ⟨tokenStr, true, ""⟩, { s with toStorage := storage }) := by
  obtain ⟨token, storage, hcreate, haccessor, hid, hstored⟩ :=
    createToken_ok env.pb.toCodecs hne halfAnHour given'.now s.toStorage
  refine ⟨token, storage, hcreate, hid, hstored, ?_⟩
  obtain ⟨hname, hpassword⟩ := prepareLoginRequest_testLogin
  have hegor : egor ≠ [] := by decide +kernel
  unfold handleLogin
  rw [hbody]
  dsimp only
  rw [if_pos (show testLogin.method = credentials from rfl)]
  unfold Credentials.login
  rw [hname, if_neg hegor, hpassword, hrole]
  dsimp only
  rw [if_pos (show env.bcrypt.compareHashAndPassword (given.testUser env).password mypassword = true
    from compare_passw hsalt), htoken, hok, hcreate]
  dsimp only
  rw [haccessor]
  rfl

/-- The test user is made and someone logs in as it, while `n` other requests wait. -/
def logIn (n : ℕ) (given given' : Given) (t t' : ℤ) : List Act :=
  [.arrive testUserRequest t, .serve n given, .arrive loginPost t', .serve n given']

/-- What is drawn and decoded when someone logs in as the test user. -/
structure LogsIn (given given' : Given) (tokenStr : Bytes) : Prop where
  salt : given.salt.isSome
  body : given'.loginRequest = some testLogin
  token : generateSecureToken given'.token = tokenStr
  ok : given'.ok = true

theorem logIn_run (env : ApiEnv) (a : Server) {tokenStr : Bytes} (h : LogsIn given given' tokenStr)
    (hne : tokenStr ≠ []) (t t' : ℤ) :
    ∃ a' reply token, runSteps (Server.step env) (logIn a.admitted.length given given' t t') a
        = some a'
      ∧ a'.admitted = a.admitted ∧ a'.history = a.history
        ++ [.arrived testUserRequest (.handled .createTestUser),
          .served testUserRequest .createTestUser given reply,
          .arrived loginPost (.handled .login),
          .served loginPost .login given' (.login 200 ⟨tokenStr, true, ""⟩)]
      ∧ token.id = tokenStr ∧ Stored env.pb.toCodecs token a'.storage.toStorage
      ∧ ∀ t'', 0 ≤ given'.now → given'.now + halfAnHour < 2 ^ 63 * 10 ^ 6 →
        t'' - given'.now < halfAnHour → expired t'' token = false := by
  obtain ⟨salt, hsalt⟩ := Option.isSome_iff_exists.mp h.salt
  have hid : (given.testUser env).id ≠ [] := by
    intro hid
    have := Util.length_newID given.uuid
    rw [show Util.newID given.uuid = [] from hid] at this
    cases this
  have hrole := getRole_storeRole env.roleCodecs given.outcome a.storage hid
    (show egor ≠ [] by decide +kernel)
  rw [← handleCreateTestUser_storage] at hrole
  obtain ⟨token, storage, hcreate, htoken, hstored, hlogin⟩ :=
    handleLogin_testLogin hrole hsalt h.body h.ok h.token hne
  have huser : runSteps (Server.step env) [.arrive testUserRequest t, .serve _ given] a = _ :=
    visit_run (handleCreateTestUser env given a.storage).1
      (handleCreateTestUser env given a.storage).2 a.log (serveHTTP_testUserRequest t _)
      fun _ _ => by
        unfold Server.serve
        rcases handleCreateTestUser env given a.storage with ⟨reply, storage⟩
        rfl
  have hin := fun history => visit_run (a := ⟨_, a.log, a.admitted, history⟩)
    (.login 200 ⟨tokenStr, true, ""⟩)
    { (handleCreateTestUser env given a.storage).2 with toStorage := storage } a.log
    (serveHTTP_loginPost t' (handleCreateTestUser env given a.storage).2.toStorage)
    fun _ _ => by rw [Server.serve, hlogin]
  have hrun := runSteps_trans huser (hin _)
  refine ⟨_, _, token, hrun, rfl, List.append_assoc .., htoken, hstored,
    fun t'' h0 hend hsoon => ?_⟩
  rw [← Bool.not_eq_true, expired_iff hcreate (by decide) h0 hend]
  exact not_lt.mpr (unix_le_of_lt (by decide) h0 (hsoon.trans (by decide)))

theorem serveHTTP_of_good (req : Request) {now : ℤ} {s : Storage} {token : Token}
    (hcors : ¬ (req.method = .options ∧ req.preflight = true)) (hne : req.clientToken ≠ [])
    (hstored : s.getToken req.clientToken = some token) (hgood : expired now token = false) :
    serveHTTP now s req = .handled (route req.method req.path) := by
  rw [serveHTTP, if_neg (by simpa using hcors), authMiddleware]
  split_ifs with hpath
  · rfl
  · rw [hstored]
    dsimp only
    rw [if_neg (by rw [hgood]; decide)]

/-- A hash that hides nothing. -/
def plainBcrypt : Bcrypt where
  generateFromPassword _ password := if password.length ≤ 72 then some password else none
  compareHashAndPassword hash password := hash = password
  isSome _ _ h := by rw [if_pos h]; rfl
  compare {_ password hash} h := by
    split_ifs at h
    exact decide_eq_true (Option.some.inj h).symm

noncomputable def someApiEnv : ApiEnv := ⟨someEnv, .ofCountable _, plainBcrypt⟩

def userGiven : Given := ⟨someTime, none, none, none, some [], true, .failed, []⟩

def loginGiven : Given := ⟨someTime, some testLogin, some [1], none, none, true, .failed, []⟩

/-- The token that is made at the login. -/
def drawn : Bytes := "01".toUTF8.toList

theorem drawn_ne : drawn ≠ [] := by decide +kernel

theorem logsIn_drawn : LogsIn userGiven loginGiven drawn := ⟨rfl, rfl, by decide +kernel, rfl⟩

/-- After the login any request with the token is admitted. -/
theorem drawn_run : ∃ a, runSteps (Server.step someApiEnv) (logIn 0 userGiven loginGiven 0 0) .empty
      = some a
    ∧ a.admitted = [] ∧ (∃ token, a.storage.getToken drawn = some token)
    ∧ ∀ req : Request, req.method ≠ .options → req.clientToken = drawn →
      serveHTTP someTime a.storage.toStorage req = .handled (route req.method req.path) := by
  obtain ⟨a, reply, token, hrun, hadmitted, -, hid, hstored, hgood⟩ :=
    logIn_run someApiEnv .empty logsIn_drawn drawn_ne 0 0
  have hget : a.storage.getToken drawn = some token := hid ▸ hstored.row
  refine ⟨a, hrun, hadmitted, ⟨token, hget⟩, fun req hmethod htoken => ?_⟩
  exact serveHTTP_of_good req (fun h => hmethod h.1) (htoken ▸ drawn_ne) (htoken ▸ hget)
    (hgood _ (by decide) (by decide) (by decide))

def drawnFile : Request := ⟨.get, "/secret".toUTF8.toList, drawn, false⟩

def drawnRevoke : Request := ⟨.delete, "/sys/tokens/01".toUTF8.toList, drawn, false⟩

def revokeGiven : Given :=
  { loginGiven with loginRequest := none, token := none, work := [(.revokeToken drawn, .fine)] }

theorem exists_step_revoke {a : Server} (h : a.admitted[0]? = some (drawnRevoke, .revokeToken)) :
    ∃ a', Server.step someApiEnv (.serve 0 revokeGiven) a = some a' := by
  have hasks : Handler.asks drawnRevoke.path revokeGiven .revokeToken (.revokeToken drawn)
      = true := by
    decide +kernel
  have hall : (revokeGiven.work.all fun x =>
      Handler.asks drawnRevoke.path revokeGiven .revokeToken x.1) = true := by
    simpa [revokeGiven] using hasks
  unfold Server.step Server.serve
  dsimp only
  rw [h]
  dsimp only
  rw [if_pos hall]
  exact ⟨_, rfl⟩

theorem exists_step_arrive (env : ApiEnv) (req : Request) (now : ℤ) (a : Server) :
    ∃ a', Server.step env (.arrive req now) a = some a' := by
  unfold Server.step
  dsimp only
  split <;> exact ⟨_, rfl⟩

end Anyone

/-- Of a request that is admitted, whatever has happened, either the path needs no token, or the
token goes back to a login as the test user. -/
theorem access_traced (env : ApiEnv) (acts : List Act) {a : Server}
    (hrun : runSteps (Server.step env) acts .empty = some a) {before after : List Event}
    {req : Request} {h : Handler}
    (harrived : a.history = before ++ .arrived req (.handled h) :: after) :
    exempt req.path = true ∨ Traced env before req.clientToken := by
  have hinv := runSteps_invariant (fun _ _ _ hI hstep => hI.step hstep) acts
    (inv_empty env) hrun
  refine hinv.arrivals before req h ⟨after, ?_⟩
  rw [harrived, List.append_assoc, List.singleton_append]

theorem access_traced_drawnFile : ∃ a before, runSteps (Server.step someApiEnv)
      (logIn 0 userGiven loginGiven 0 0 ++ [.arrive drawnFile someTime]) .empty = some a
    ∧ a.history = before ++ [.arrived drawnFile (.handled .filesystem)]
    ∧ Traced someApiEnv before drawn := by
  obtain ⟨a, hrun, -, -, hgood⟩ := drawn_run
  have hpath : exempt drawnFile.path = false := by decide +kernel
  have hroute : route drawnFile.method drawnFile.path = .filesystem := by decide +kernel
  have hfile := hgood drawnFile (by decide) rfl
  rw [hroute] at hfile
  have hrun := runSteps_trans hrun (arrive_run hfile)
  exact ⟨_, a.history, hrun, rfl, (access_traced someApiEnv _ hrun rfl).resolve_left
    (by rw [hpath]; decide)⟩

/-- Once a token was revoked, by a request or because it had expired, and the backend let go of it,
no request that carries it is admitted to a path that needs one, whatever else happens, unless the
same token is drawn again. -/
theorem revoked_refused (env : ApiEnv) (acts acts' : List Act) {act : Act} {a a₁ b : Server}
    {k : Bytes} (hrun : runSteps (Server.step env) acts .empty = some a)
    (hrevokes : act.Revokes k a) (hstep : Server.step env act a = some a₁)
    (hspares : ∀ act ∈ acts', act.Spares k)
    (hrun' : runSteps (Server.step env) acts' a₁ = some b) :
    ∃ after, b.history = a₁.history ++ after ∧ ∀ req h,
      .arrived req (.handled h) ∈ after → req.clientToken = k → exempt req.path = true := by
  have hinv := runSteps_invariant (fun _ _ _ hI hstep => hI.step hstep) acts
    (inv_empty env) hrun
  have hgone := hinv.tokens.revokes hrevokes hstep
  refine (Along.invariant (P := fun act _ => act.Spares k)
    (I := fun b => TokensAre env.pb.toCodecs (· ≠ k) b.storage.toStorage
      ∧ ∃ after, b.history = a₁.history ++ after ∧ ∀ req h,
        .arrived req (.handled h) ∈ after → req.clientToken = k → exempt req.path = true)
    (fun act b b' hb hact hstep => ?_) acts' ⟨hgone, [], (List.append_nil _).symm, fun _ _ hmem =>
      absurd hmem List.not_mem_nil⟩ (Along.of_forall fun act hact _ => hspares act hact) hrun').2
  obtain ⟨hgone, after, hafter, hrefuses⟩ := hb
  obtain ⟨hgone', after', hafter', hrefuses'⟩ := hgone.step_ne hact hstep
  refine ⟨hgone', after ++ after', by rw [hafter', hafter, List.append_assoc], fun req h hmem => ?_⟩
  rcases List.mem_append.mp hmem with hmem | hmem
  · exact hrefuses req h hmem
  · exact hrefuses' req h hmem

theorem revoked_refused_drawn : ∃ a a₁ b after, runSteps (Server.step someApiEnv)
      (logIn 0 userGiven loginGiven 0 0 ++ [.arrive drawnRevoke someTime]) .empty = some a
    ∧ Server.step someApiEnv (.serve 0 revokeGiven) a = some a₁
    ∧ runSteps (Server.step someApiEnv) [.restart, .arrive drawnFile someTime] a₁ = some b
    ∧ b.history = a₁.history ++ after ∧ ∀ req h, .arrived req (.handled h) ∈ after →
      req.clientToken = drawn → exempt req.path = true := by
  obtain ⟨a, hrun, hadmitted, ⟨token, hstored⟩, hgood⟩ := drawn_run
  have hroute : route drawnRevoke.method drawnRevoke.path = .revokeToken := by decide +kernel
  have hrevoke := hgood drawnRevoke (by decide) rfl
  rw [hroute] at hrevoke
  have hrun := runSteps_trans hrun (arrive_run hrevoke)
  have hfirst : (a.admitted ++ [(drawnRevoke, Handler.revokeToken)])[0]?
      = some (drawnRevoke, .revokeToken) := by
    rw [hadmitted]
    rfl
  obtain ⟨a₁, hstep⟩ := exists_step_revoke (a := ⟨a.storage, a.log, _,
    a.history ++ [.arrived drawnRevoke (.handled .revokeToken)]⟩) hfirst
  obtain ⟨b, hb⟩ := exists_step_arrive someApiEnv drawnFile someTime
    { a₁ with storage := a₁.storage.loadFromBackend someApiEnv.roleCodecs, admitted := [] }
  have hrun' : runSteps (Server.step someApiEnv) [.restart, .arrive drawnFile someTime] a₁
      = some b := by
    rw [runSteps, Server.step]
    dsimp only
    rw [runSteps, hb]
    rfl
  have hspares : ∀ act ∈ [Act.restart, .arrive drawnFile someTime], act.Spares drawn := by
    simp [Act.Spares]
  have hrevokes : (Act.serve 0 revokeGiven).Revokes drawn ⟨a.storage, a.log, _,
      a.history ++ [.arrived drawnRevoke (.handled .revokeToken)]⟩ :=
    ⟨drawnRevoke, .fine, token, hfirst, rfl, rfl, hstored⟩
  obtain ⟨after, hafter, hrefuses⟩ := revoked_refused someApiEnv _ _ hrun hrevokes hstep hspares
    hrun'
  exact ⟨_, a₁, b, after, hrun, hstep, hrun', hafter, hrefuses⟩

/-- In every state that the server gets to, anyone can make the test user and log in as it without a
token, and is given one, if the backend takes it. Whatever is done then, as long as the token is
neither revoked nor drawn again, any request with it is admitted, to whatever path and by whatever
method, until half an hour has passed. -/
theorem anyone_admitted (env : ApiEnv) (acts : List Act) {a : Server}
    (hrun : runSteps (Server.step env) acts .empty = some a) {given given' : Given}
    {tokenStr : Bytes} (h : LogsIn given given' tokenStr) (hne : tokenStr ≠ []) (t t' : ℤ)
    (h0 : 0 ≤ given'.now) (hend : given'.now + halfAnHour < 2 ^ 63 * 10 ^ 6) :
    ∃ a₁ reply, runSteps (Server.step env) (logIn a.admitted.length given given' t t') a = some a₁
      ∧ a₁.history = a.history
        ++ [.arrived testUserRequest (.handled .createTestUser),
          .served testUserRequest .createTestUser given reply,
          .arrived loginPost (.handled .login),
          .served loginPost .login given' (.login 200 ⟨tokenStr, true, ""⟩)]
      ∧ ∀ acts' b, (∀ act ∈ acts', act.Leaves tokenStr given'.now) →
        runSteps (Server.step env) acts' a₁ = some b →
        ∀ (t'' : ℤ) (req : Request), t'' - given'.now < halfAnHour →
          ¬ (req.method = .options ∧ req.preflight = true) → req.clientToken = tokenStr →
          serveHTTP t'' b.storage.toStorage req = .handled (route req.method req.path) := by
  have hinv := runSteps_invariant (fun _ _ _ hI hstep => hI.step hstep) acts
    (inv_empty env) hrun
  obtain ⟨a₁, reply, token, hlogin, -, hhistory, rfl, hstored, hgood⟩ := logIn_run env a h hne t t'
  have htokens := (runSteps_invariant (fun _ _ _ hI hstep => hI.step hstep) _ hinv
    hlogin).tokens.mono fun _ _ => trivial
  have hlive := fun now => hgood now h0 hend
  refine ⟨a₁, reply, hlogin, hhistory, fun acts' b hleaves hrun' t'' req hsoon hcors htoken => ?_⟩
  have hb := Along.invariant (P := fun act _ => act.Leaves token.id given'.now)
    (I := fun b => TokensAre env.pb.toCodecs (fun _ => True) b.storage.toStorage
      ∧ Stored env.pb.toCodecs token b.storage.toStorage)
    (fun act b b' hb hact hstep => hb.2.step hlive hb.1 hact hstep) acts' ⟨htokens, hstored⟩
    (Along.of_forall fun act hact _ => hleaves act hact) hrun'
  exact serveHTTP_of_good req hcors (htoken ▸ hne) (htoken ▸ hb.2.row) (hlive t'' hsoon)

/-- A round over the tokens and a restart later, it deletes a file. -/
theorem anyone_admitted_deletes : ∃ a₁ b, runSteps (Server.step someApiEnv)
      (logIn 0 userGiven loginGiven 0 0) .empty = some a₁
    ∧ runSteps (Server.step someApiEnv) [.expire (someTime + 1) fun _ => true, .restart] a₁ = some b
    ∧ serveHTTP someTime b.storage.toStorage ⟨.delete, "/secret".toUTF8.toList, drawn, false⟩
      = .handled .filesystem := by
  obtain ⟨a₁, reply, hrun, -, hall⟩ := anyone_admitted someApiEnv [] rfl logsIn_drawn
    drawn_ne 0 0 (by decide) (by decide)
  have hleaves : ∀ act ∈ [Act.expire (someTime + 1) fun _ => true, .restart],
      act.Leaves drawn loginGiven.now := by
    simp only [List.forall_mem_cons, List.not_mem_nil, false_imp_iff, implies_true, and_true]
    exact ⟨show someTime + 1 - someTime < halfAnHour by decide, trivial⟩
  refine ⟨a₁, _, hrun, rfl, (hall _ _ hleaves rfl someTime _ (by decide) (by decide) rfl).trans ?_⟩
  rw [show route .delete "/secret".toUTF8.toList = .filesystem by decide +kernel]

end Rhosus.Api
