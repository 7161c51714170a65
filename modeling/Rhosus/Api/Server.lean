import Rhosus.Api.Router
import Rhosus.Lib.Backed
import Rhosus.Lib.Hex
import Rhosus.Registry.Namespace
import Rhosus.Registry.Roles
import Rhosus.Util.Uuid

/-!
# The server

A client logs in by the name and the password of a role and is given a token, by which it may ask
for others. Roles are stored by nothing but `handleCreateTestUser`, which needs no token and always
stores the same name and password. `AuthMiddleware` admits a request at one time and its handler
serves it at another; in between others are served, tokens expire, and the registry may start anew.
-/

namespace Rhosus.Api

open Registry

section Source

/-- The hash of passwords, with what is known of it: passwords of up to 72 bytes have one, and it
is good for the password it was made from. -/
structure Bcrypt where
  generateFromPassword : (salt password : Bytes) → Option Bytes
  compareHashAndPassword : (hash password : Bytes) → Bool
  isSome : ∀ salt {password}, password.length ≤ 72 → (generateFromPassword salt password).isSome
  compare : ∀ {salt password hash}, generateFromPassword salt password = some hash →
    compareHashAndPassword hash password = true

structure ApiEnv extends Env where
  role : Codec Role
  bcrypt : Bcrypt

def ApiEnv.roleCodecs (env : ApiEnv) : RoleCodecs := ⟨env.pb.toCodecs, env.role⟩

/-- `api_pb.LoginRequest` -/
structure LoginRequest where
  method : Bytes
  data : OrdMap Bytes Bytes

/-- `auth.LoginRequest` -/
structure Credentials where
  username : Bytes
  data : OrdMap Bytes Bytes

structure LoginResponse where
  token : Bytes
  success : Bool
  message : String
  deriving DecidableEq

/-- `name` -/
def nameKey : Bytes := "name".toUTF8.toList

/-- `password` -/
def passwordKey : Bytes := "password".toUTF8.toList

/-- The key of `AuthMethods`. -/
def credentials : Bytes := "credentials".toUTF8.toList

def prepareLoginRequest (req : LoginRequest) : Credentials :=
  ⟨(req.data[nameKey]?).getD [], req.data.erase nameKey⟩

/-- Of the bytes that were drawn, if any could be. -/
def generateSecureToken (b : Option Bytes) : Bytes := (b.map Hex.encode).getD []

/-- What the serving of a request is given from outside: the time; the body, if it is one of a
login and can be decoded; what is drawn for a token, an id and a hash; whether the backend takes a
token, and what becomes of a role there; and what is asked of the registry, with its fate. -/
structure Given where
  now : ℤ
  loginRequest : Option LoginRequest
  token : Option Bytes
  uuid : Option Util.UUID
  salt : Option Bytes
  ok : Bool
  outcome : Registry.Outcome
  work : List (Registry.Request × Fate)

inductive Reply
  | status (code : ℕ)
  | login (code : ℕ) (res : LoginResponse)
  /-- The answer of the registry. -/
  | registry
  deriving DecidableEq

section Handlers

variable (env : ApiEnv) (given : Given)

/-- `Login` of `CredentialsAuth` -/
def Credentials.login (req : Credentials) (s : FullStorage) :
    Except Err LoginResponse × FullStorage :=
  if req.username = [] then (.ok ⟨[], false, "'name' is a required parameter"⟩, s)
  else
    match req.data[passwordKey]? with
    | none => (.ok ⟨[], false, "'password' is a required parameter"⟩, s)
    | some password =>
      match s.getRole req.username with
      | none => (.ok ⟨[], false, "role is not found"⟩, s)
      | some role =>
        if env.bcrypt.compareHashAndPassword role.password password then
          match createToken env.pb.toCodecs (generateSecureToken given.token) halfAnHour given.now
            given.ok s.toStorage with
          | (.error e, storage) => (.error e, { s with toStorage := storage })
          | (.ok token, storage) =>
            (.ok ⟨token.accessor, true, ""⟩, { s with toStorage := storage })
        else (.ok ⟨[], false, "invalid password"⟩, s)

def handleLogin (s : FullStorage) : Reply × FullStorage :=
  match given.loginRequest with
  | none => (.status 400, s)
  | some req =>
    if req.method = credentials then
      match (prepareLoginRequest req).login env given s with
      | (.error _, s) => (.status 500, s)
      | (.ok res, s) => (.login (if res.success then 200 else 400) res, s)
    else (.login 400 ⟨[], false, "unknown login method"⟩, s)

/-- `egor` -/
def egor : Bytes := "egor".toUTF8.toList

/-- `Mypassword` -/
def mypassword : Bytes := "Mypassword".toUTF8.toList

/-- The hash that `handleCreateTestUser` makes; its error is dropped. -/
def Given.passw : Bytes :=
  (given.salt.bind fun salt => env.bcrypt.generateFromPassword salt mypassword).getD []

def Given.testUser : Role where
  id := Util.newID given.uuid
  name := egor
  permissions := []
  password := given.passw env

def handleCreateTestUser (s : FullStorage) : Reply × FullStorage :=
  match s.storeRole env.roleCodecs given.outcome (given.testUser env) with
  | (.error _, s) => (.status 500, s)
  | (.ok _, s) => (.status 200, s)

end Handlers

/-- What the handlers of these routes ask of the registry. -/
def Handler.asks (path : Bytes) (given : Given) : Handler → Registry.Request → Bool
  | .makeDir, .makeDir .. => true
  | .createUpdatePolicy, .createPolicy .. => true
  | .deletePolicy, .deletePolicy name => name = (split path).getLastD []
  | .createToken, .createToken _ tokenStr now =>
    tokenStr = generateSecureToken given.token && now = unixMilli given.now
  | .revokeToken, .revokeToken accessor => accessor = (split path).getLastD []
  | .filesystem, .transportAndRegisterBlocks .. => true
  | .filesystem, .registerFile _ => true
  | .filesystem, .removeFileOrPath .. => true
  | _, _ => false

inductive Event
  | arrived (req : Request) (response : Response)
  | served (req : Request) (h : Handler) (given : Given) (reply : Reply)

/-- The server, the requests that it has admitted and not served, and what has happened. -/
structure Server where
  storage : FullStorage
  log : List (Cluster.EntryType × Bytes)
  admitted : List (Request × Handler)
  history : List Event

inductive Act
  /-- `AuthMiddleware` decides on a request. -/
  | arrive (req : Request) (now : ℤ)
  /-- The handler of an admitted request runs. -/
  | serve (i : ℕ) (given : Given)
  /-- A round of `watchForTokensExpiration`. -/
  | expire (now : ℤ) (ok : Token → Bool)
  | restart

namespace Server

def empty : Server := ⟨.empty, [], [], []⟩

def serve (env : ApiEnv) (req : Request) (h : Handler) (given : Given) (a : Server) :
    Option (Reply × Server) :=
  match h with
  | .login =>
    let (reply, storage) := handleLogin env given a.storage
    some (reply, { a with storage })
  | .createTestUser =>
    let (reply, storage) := handleCreateTestUser env given a.storage
    some (reply, { a with storage })
  | h =>
    if given.work.all fun x => h.asks req.path given x.1 then
      (runSteps (Registry.serve env.toEnv) given.work ⟨a.storage.toStorage, a.log⟩).map fun r =>
        (.registry, { a with storage := { a.storage with toStorage := r.storage }, log := r.log })
    else none

def step (env : ApiEnv) : Act → Server → Option Server
  | .arrive req now, a =>
    let response := serveHTTP now a.storage.toStorage req
    let history := a.history ++ [.arrived req response]
    match response with
    | .handled h => some { a with admitted := a.admitted ++ [(req, h)], history }
    | _ => some { a with history }
  | .serve i given, a =>
    match a.admitted[i]? with
    | none => none
    | some (req, h) =>
      match a.serve env req h given with
      | none => none
      | some (reply, a) => some
          { a with
            admitted := a.admitted.eraseIdx i
            history := a.history ++ [.served req h given reply] }
  | .expire now ok, a => some { a with
      storage := { a.storage with
        toStorage := watchForTokensExpiration now ok a.storage.toStorage } }
  | .restart, a => some
      { a with storage := a.storage.loadFromBackend env.roleCodecs, admitted := [] }

end Server

end Source

section Tokens

variable {env : Env} {pb : Codecs} {fate : Fate} {P : Bytes → Prop} {s s' : Storage} {r r' : Leader}

/-- The tokens that are stored, in memory or in the backend, have the property. -/
def TokensAre (pb : Codecs) (P : Bytes → Prop) (s : Storage) : Prop :=
  Backed tokensTable pb.token.unmarshal tokensTable.id (fun token => P token.id) s.tokens
    (s.backend .token)

/-- The tokens are as they were. -/
def SameTokens (s s' : Storage) : Prop :=
  s'.tokens = s.tokens ∧ s'.backend .token = s.backend .token

theorem SameTokens.tokensAre (h : SameTokens s s') (hs : TokensAre pb P s) : TokensAre pb P s' := by
  rw [TokensAre, h.1, h.2]
  exact hs

theorem SameTokens.trans {s₁ s₂ s₃ : Storage} (h : SameTokens s₁ s₂) (h' : SameTokens s₂ s₃) :
    SameTokens s₁ s₃ := ⟨h'.1.trans h.1, h'.2.trans h.2⟩

theorem sameTokens_remove {t : Registry.EntryType} (ht : t ≠ .token) (keys : List Bytes) (ok : Bool)
    (s : Storage) : SameTokens s (s.remove t keys ok) := by
  unfold Storage.remove
  split_ifs
  · exact ⟨rfl, Function.update_of_ne ht.symm ..⟩
  · exact ⟨rfl, rfl⟩

theorem sameTokens_put {t : Registry.EntryType} (ht : t ≠ .token) (entries : List (Bytes × Bytes))
    (ok : Bool) (s : Storage) : SameTokens s (s.put t entries ok).2 := by
  unfold Storage.put
  split_ifs
  · exact ⟨rfl, Function.update_of_ne ht.symm ..⟩
  · exact ⟨rfl, rfl⟩

theorem sameTokens_putBlocks (pb : Codecs) (blocks : List BlockInfo) (ok : Bool) (s : Storage) :
    SameTokens s (s.putBlocks pb blocks ok).2 := by
  unfold Storage.putBlocks
  split
  · exact ⟨rfl, rfl⟩
  · exact sameTokens_put (by decide) ..

theorem sameTokens_storePolicy (pb : Codecs) (p : Policy) (ok : Bool) (s : Storage) :
    SameTokens s (s.storePolicy pb p ok).2 := by
  unfold Storage.storePolicy
  split
  · exact ⟨rfl, rfl⟩
  · exact sameTokens_put (by decide) ..

theorem sameTokens_deletePolicy (p : Policy) (ok : Bool) (s : Storage) :
    SameTokens s (s.deletePolicy p ok).2 := by
  unfold Storage.deletePolicy
  split
  · exact ⟨rfl, rfl⟩
  · exact sameTokens_remove (by decide) ..

theorem sameTokens_storeAndWrite (env : Env) (fate : Fate) (file : FileInfo) (r : Leader) :
    SameTokens r.storage (storeAndWrite env fate file r).2.storage := by
  have hstore : SameTokens r.storage (r.storage.storeFile env.pb.toCodecs file fate.put).2 := by
    unfold Storage.storeFile
    split
    · exact ⟨rfl, rfl⟩
    · exact sameTokens_put (by decide) ..
  unfold storeAndWrite
  split <;> rename_i storage hs <;> rw [hs] at hstore
  · exact hstore
  · cases fate.write <;> exact hstore

theorem sameTokens_removeFileBlocks (file : FileInfo) (s : Storage) :
    SameTokens s (removeFileBlocks fate file s).2 := by
  unfold removeFileBlocks Storage.deleteFileWithBlocks
  dsimp only
  split
  · rename_i blocks files _ _
    have hfile := sameTokens_remove (t := .file) (by decide) [file.path] (fate.delete file).1
      { s with files, blocks }
    exact hfile.trans (sameTokens_remove (by decide) ..)
  · exact ⟨rfl, rfl⟩

theorem TokensAre.mono {P' : Bytes → Prop} (h : TokensAre pb P s) (hle : ∀ k, P k → P' k) :
    TokensAre pb P' s := Backed.mono h fun token => hle token.id

theorem TokensAre.storeToken (h : TokensAre pb P s) (token : Token) (hP : P token.id) (ok : Bool) :
    TokensAre pb P (s.storeToken pb token ok).2 := by
  unfold Storage.storeToken
  rcases hi : s.tokens.insert tokensTable token with _ | tokens
  · exact h
  have hins := Backed.insert h hi hP
  cases ok
  · exact hins
  · exact hins.put (pb.token.unmarshal_marshal token) hP

theorem TokensAre.revokeToken (h : TokensAre pb P s) (token : Token) (ok : Bool) :
    TokensAre pb P (s.revokeToken token ok).2 := by
  unfold Storage.revokeToken
  rcases hd : s.tokens.delete tokensTable token with _ | tokens
  · exact h
  have hdel := Backed.delete h hd
  cases ok
  · exact hdel
  · exact hdel.erase _

theorem TokensAre.revokeToken_ne (h : TokensAre pb P s) {token : Token}
    (hstored : s.getToken token.id = some token) :
    TokensAre pb (· ≠ token.id) (s.revokeToken token true).2 := by
  unfold Storage.revokeToken
  rw [Table.delete_of_has (S := tokensTable) hstored]
  exact (Backed.delete_erase h (Table.delete_of_has hstored)).mono fun c hc => hc.2

theorem TokensAre.revokeEach {now : ℤ} {ok : Token → Bool} : ∀ (tokens : List Token) {s : Storage},
    TokensAre pb P s → TokensAre pb P (tokens.foldl (fun s token =>
      if expired now token then (s.revokeToken token (ok token)).2 else s) s)
  | [], _, h => h
  | token :: tokens, s, h => by
    rw [List.foldl_cons]
    apply TokensAre.revokeEach
    split_ifs
    · exact h.revokeToken token _
    · exact h

/-- The loop comes to a token that has expired, and the backend lets go of it. -/
theorem TokensAre.revokeEach_ne {now : ℤ} {ok : Token → Bool} {token : Token}
    (hexp : expired now token = true) (hok : ok token = true) :
    ∀ (tokens : List Token) {s : Storage}, TokensAre pb P s → s.getToken token.id = some token →
      token ∈ tokens → (∀ t ∈ tokens, t.id = token.id → t = token) →
        TokensAre pb (· ≠ token.id) (tokens.foldl (fun s token =>
          if expired now token then (s.revokeToken token (ok token)).2 else s) s)
  | t :: tokens, s, h, hstored, hmem, honly => by
    rw [List.foldl_cons]
    by_cases ht : t.id = token.id
    · obtain rfl := honly t List.mem_cons_self ht
      rw [if_pos hexp, hok]
      exact (h.revokeToken_ne hstored).revokeEach tokens
    · have hmem : token ∈ tokens :=
        (List.mem_cons.mp hmem).resolve_left fun he => ht (congrArg Token.id he.symm)
      refine TokensAre.revokeEach_ne hexp hok tokens ?_ ?_ hmem fun t' ht' =>
        honly t' (List.mem_cons_of_mem _ ht')
      · split_ifs
        · exact h.revokeToken t _
        · exact h
      · split_ifs
        · rw [getToken_revokeToken, if_neg ht, hstored]
        · exact hstored

/-- What becomes of the tokens: they stay, or one is stored or revoked, and so on. -/
inductive TokensGo (pb : Codecs) (stores revokes : Bytes → Prop) : Storage → Storage → Prop
  | same {s s' : Storage} (h : SameTokens s s') : TokensGo pb stores revokes s s'
  | store {s : Storage} (token : Token) (ok : Bool) (h : stores token.id) :
    TokensGo pb stores revokes s (s.storeToken pb token ok).2
  | revoke {s : Storage} {k : Bytes} {token : Token} (ok : Bool) (hk : s.getToken k = some token)
    (h : revokes k) : TokensGo pb stores revokes s (s.revokeToken token ok).2
  | trans {s₁ s₂ s₃ : Storage} (h : TokensGo pb stores revokes s₁ s₂)
    (h' : TokensGo pb stores revokes s₂ s₃) : TokensGo pb stores revokes s₁ s₃

theorem TokensAre.go {R : Bytes → Prop} (h : TokensAre pb P s) (hgo : TokensGo pb P R s s') :
    TokensAre pb P s' := by
  induction hgo with
  | same hs => exact hs.tokensAre h
  | store token ok hP => exact h.storeToken token hP ok
  | revoke ok => exact h.revokeToken _ ok
  | trans _ _ ih ih' => exact ih' (ih h)

theorem step_tokensGo {req : Registry.Request} {P R : Bytes → Prop}
    (hstep : req.step env fate r = some r')
    (hstores : ∀ policies tokenStr now, req = .createToken policies tokenStr now → P tokenStr)
    (hrevokes : ∀ accessor, req = .revokeToken accessor → R accessor) :
    TokensGo env.pb.toCodecs P R r.storage r'.storage := by
  cases req with
  | makeDir path uid =>
    obtain rfl := Option.some.inj hstep
    refine .same ?_
    unfold handleMakeDir
    dsimp only
    split
    · exact ⟨rfl, rfl⟩
    split
    · exact ⟨rfl, rfl⟩
    rename_i parentID hparent
    have hwrite := sameTokens_storeAndWrite env fate (newDir (trim path) uid parentID) r
    split <;> rename_i r₁ hr₁ <;> rwa [hr₁] at hwrite
  | transportAndRegisterBlocks fileID blocks answers order =>
    obtain rfl := Option.some.inj hstep
    refine .same ?_
    have hput := sameTokens_putBlocks env.pb.toCodecs
      (blockInfos fileID blocks answers order) fate.put r.storage
    unfold registerBlocks
    dsimp only
    cases fate.write <;> exact hput
  | registerFile file =>
    obtain rfl := Option.some.inj hstep
    refine .same ?_
    unfold registerFile
    split
    · exact ⟨rfl, rfl⟩
    split
    · exact ⟨rfl, rfl⟩
    · exact sameTokens_storeAndWrite env fate _ r
  | removeFileOrPath path fuel =>
    obtain ⟨res, hres, rfl⟩ := Option.map_eq_some_iff.mp hstep
    exact .same (handleRemoveFileOrPath_rel (R := SameTokens) (fun _ => ⟨rfl, rfl⟩)
      (fun _ _ _ => SameTokens.trans) sameTokens_removeFileBlocks hres)
  | createPolicy name paths uid =>
    obtain rfl := Option.some.inj hstep
    refine .same ?_
    have hput := fun p => sameTokens_storePolicy env.pb.toCodecs p fate.put r.storage
    unfold handleCreatePolicy
    dsimp only
    split <;> rename_i storage hs <;> obtain rfl := congrArg Prod.snd hs
    · exact hput _
    · rw [Leader.writeEntry_storage]
      exact hput _
  | deletePolicy name =>
    obtain rfl := Option.some.inj hstep
    refine .same ?_
    unfold handleDeletePolicy
    split
    · exact ⟨rfl, rfl⟩
    rename_i policy hpolicy
    have hdel := sameTokens_deletePolicy policy fate.put r.storage
    split <;> rename_i storage hs <;> rw [hs] at hdel
    · exact hdel
    · rw [Leader.writeEntry_storage]
      exact hdel
  | createToken policies tokenStr now =>
    obtain rfl := Option.some.inj hstep
    have hP := hstores _ _ _ rfl
    unfold handleCreateToken
    dsimp only
    split <;> rename_i storage hs <;> obtain rfl := congrArg Prod.snd hs
    · exact .store _ _ hP
    · rw [Leader.writeEntry_storage]
      exact .store _ _ hP
  | revokeToken accessor =>
    obtain rfl := Option.some.inj hstep
    unfold handleRevokeToken
    split
    · exact .same ⟨rfl, rfl⟩
    rename_i token htoken
    split <;> rename_i storage hs <;> obtain rfl := congrArg Prod.snd hs
    · exact .revoke _ htoken (hrevokes _ rfl)
    · rw [Leader.writeEntry_storage]
      exact .revoke _ htoken (hrevokes _ rfl)

end Tokens

section Roles

variable {env : ApiEnv} {Q : Role → Prop} {s : FullStorage} {role : Role}

/-- The roles that are stored, in memory or in the backend, have the property. -/
def RolesAre (env : ApiEnv) (Q : Role → Prop) (s : FullStorage) : Prop :=
  Backed rolesTable env.role.unmarshal rolesTable.id Q s.roles s.roleBucket

theorem toStorage_storeRole (pb : RoleCodecs) (o : Registry.Outcome) (role : Role)
    (s : FullStorage) : (s.storeRole pb o role).2.toStorage = s.toStorage := by
  unfold FullStorage.storeRole Shelf.store
  split <;> rfl

theorem RolesAre.mono {Q' : Role → Prop} (h : RolesAre env Q s) (hle : ∀ role, Q role → Q' role) :
    RolesAre env Q' s := Backed.mono h hle

theorem RolesAre.storeRole (h : RolesAre env Q s) (hQ : Q role) (o : Registry.Outcome) :
    RolesAre env Q (s.storeRole env.roleCodecs o role).2 := by
  unfold FullStorage.storeRole Shelf.store
  rw [Table.insertAll_singleton]
  rcases hi : s.roles.insert rolesTable role with _ | t
  · rw [show ((Shelf.roles env.roleCodecs).table s).insert (Shelf.roles env.roleCodecs).schema role
      = none from hi]
    exact h
  rw [show ((Shelf.roles env.roleCodecs).table s).insert (Shelf.roles env.roleCodecs).schema role
    = some t from hi]
  have hins := Backed.insert h hi hQ
  cases o with
  | shutdown => exact hins
  | failed => exact hins
  | done fails =>
    refine hins.putAll _ fun e he => ?_
    obtain rfl := List.mem_singleton.mp ((Registry.Outcome.written_sublist _ _).subset he)
    exact ⟨role, env.role.unmarshal_marshal role, rfl, hQ⟩

theorem RolesAre.getRole (h : RolesAre env Q s) {name : Bytes} (hr : s.getRole name = some role) :
    Q role ∧ role.name = name := by
  obtain ⟨hhas, hkey⟩ := h.sound.index hr
  exact ⟨h.rows role hhas, by simpa [rolesTable_nameKey] using hkey⟩

end Roles

section Serve

variable {env : ApiEnv} {given : Given} {P : Bytes → Prop} {Q : Role → Prop} {s : FullStorage}
variable {a a' : Server} {req : Request} {hd : Handler} {reply : Reply}

/-- The handler makes a token: it is asked to, or the password is right for a role. -/
def Issues (env : ApiEnv) (given : Given) (s : FullStorage) : Handler → Prop
  | .createToken => True
  | .login => ∃ l name password role, given.loginRequest = some l
      ∧ l.data[nameKey]? = some name ∧ l.data[passwordKey]? = some password
      ∧ s.getRole name = some role
      ∧ env.bcrypt.compareHashAndPassword role.password password = true
  | _ => False

theorem createToken_tokensGo {pb : Codecs} {R : Bytes → Prop} {tokenStr : Bytes} (hP : P tokenStr)
    (ttl now : ℤ) (ok : Bool) (s : Storage) :
    TokensGo pb P R s (createToken pb tokenStr ttl now ok s).2 := by
  unfold createToken
  dsimp only
  split <;> rename_i storage hs <;> obtain rfl := congrArg Prod.snd hs <;> exact .store _ _ hP

theorem data_prepareLoginRequest (l : LoginRequest) :
    (prepareLoginRequest l).data[passwordKey]? = l.data[passwordKey]? :=
  OrdMap.get_erase_of_ne (by decide +kernel)

/-- A login changes nothing, or it makes a token. -/
theorem handleLogin_storage (env : ApiEnv) (given : Given) (s : FullStorage) :
    (handleLogin env given s).2 = s ∨ Issues env given s .login
      ∧ (handleLogin env given s).2 = { s with
          toStorage := (createToken env.pb.toCodecs (generateSecureToken given.token) halfAnHour
            given.now given.ok s.toStorage).2 } := by
  unfold handleLogin
  rcases hl : given.loginRequest with _ | l
  · exact .inl rfl
  dsimp only
  split_ifs with hmethod
  swap
  · exact .inl rfl
  unfold Credentials.login
  split_ifs with hname
  · exact .inl rfl
  rcases hpassword : (prepareLoginRequest l).data[passwordKey]? with _ | password
  · exact .inl rfl
  rcases hrole : s.getRole (prepareLoginRequest l).username with _ | role
  · exact .inl rfl
  dsimp only
  split_ifs with hright
  swap
  · exact .inl rfl
  have hissues : Issues env given s .login := by
    rw [data_prepareLoginRequest] at hpassword
    rcases hdata : l.data[nameKey]? with _ | name
    · exact absurd (by rw [prepareLoginRequest, hdata]; rfl) hname
    · rw [show (prepareLoginRequest l).username = name by rw [prepareLoginRequest, hdata]; rfl]
        at hrole
      exact ⟨l, name, password, role, hl, hdata, hpassword, hrole, hright⟩
  refine .inr ⟨hissues, ?_⟩
  rcases createToken env.pb.toCodecs (generateSecureToken given.token) halfAnHour given.now given.ok
    s.toStorage with ⟨_ | _, storage⟩ <;> rfl

theorem handleCreateTestUser_storage (env : ApiEnv) (given : Given) (s : FullStorage) :
    (handleCreateTestUser env given s).2
      = (s.storeRole env.roleCodecs given.outcome (given.testUser env)).2 := by
  unfold handleCreateTestUser
  split <;> rename_i h <;> rw [h]

theorem serve_cases (h : a.serve env req hd given = some (reply, a')) :
    (hd = .login ∧ a' = { a with storage := (handleLogin env given a.storage).2 })
      ∨ (hd = .createTestUser
        ∧ a' = { a with storage := (handleCreateTestUser env given a.storage).2 })
      ∨ ∃ r, (∀ x ∈ given.work, hd.asks req.path given x.1 = true)
        ∧ runSteps (Registry.serve env.toEnv) given.work ⟨a.storage.toStorage, a.log⟩ = some r
        ∧ a' = { a with storage := { a.storage with toStorage := r.storage }, log := r.log } := by
  cases hd with
  | login =>
    obtain ⟨-, rfl⟩ := Prod.mk.inj (Option.some.inj h)
    exact .inl ⟨rfl, rfl⟩
  | createTestUser =>
    obtain ⟨-, rfl⟩ := Prod.mk.inj (Option.some.inj h)
    exact .inr (.inl ⟨rfl, rfl⟩)
  | _ =>
    unfold Server.serve at h
    dsimp only at h
    split_ifs at h with hasks
    obtain ⟨r, hr, heq⟩ := Option.map_eq_some_iff.mp h
    obtain ⟨-, rfl⟩ := Prod.mk.inj heq
    exact .inr (.inr ⟨r, List.all_eq_true.mp hasks, hr, rfl⟩)

theorem asks_createToken {path tokenStr : Bytes} {policies : List Bytes} {now : ℤ}
    (h : hd.asks path given (.createToken policies tokenStr now) = true) :
    hd = .createToken ∧ tokenStr = generateSecureToken given.token := by
  cases hd with
  | createToken =>
    simp only [Handler.asks, Bool.and_eq_true, decide_eq_true_eq] at h
    exact ⟨rfl, h.1⟩
  | _ => cases h

/-- What a handler does: it may issue the token that is drawn, and revokes what it is asked to. -/
theorem serve_tokensGo {R : Bytes → Prop} (hserve : a.serve env req hd given = some (reply, a'))
    (hstores : Issues env given a.storage hd → P (generateSecureToken given.token))
    (hrevokes : ∀ accessor fate, (.revokeToken accessor, fate) ∈ given.work → R accessor) :
    TokensGo env.pb.toCodecs P R a.storage.toStorage a'.storage.toStorage := by
  rcases serve_cases hserve with ⟨rfl, rfl⟩ | ⟨rfl, rfl⟩ | ⟨r, hasks, hrun, rfl⟩
  · dsimp only
    rcases handleLogin_storage env given a.storage with hsame | ⟨hissues, hmade⟩
    · rw [hsame]
      exact .same ⟨rfl, rfl⟩
    · rw [hmade]
      exact createToken_tokensGo (hstores hissues) ..
  · dsimp only
    rw [handleCreateTestUser_storage, toStorage_storeRole]
    exact .same ⟨rfl, rfl⟩
  · refine Along.invariant (P := fun x _ => x ∈ given.work)
      (I := fun r => TokensGo env.pb.toCodecs P R a.storage.toStorage r.storage)
      (fun x r r' hr hx hstep => hr.trans ?_)
      given.work (.same ⟨rfl, rfl⟩) (Along.of_forall fun x hx _ => hx) hrun
    refine step_tokensGo hstep (fun policies tokenStr now hreq => ?_) fun accessor hreq =>
      hrevokes accessor x.2 (hreq ▸ hx)
    obtain ⟨rfl, rfl⟩ := asks_createToken (hreq ▸ hasks x hx)
    exact hstores trivial

theorem RolesAre.serve (h : RolesAre env Q a.storage)
    (hserve : a.serve env req hd given = some (reply, a'))
    (hnew : hd = .createTestUser → Q (given.testUser env)) : RolesAre env Q a'.storage := by
  rcases serve_cases hserve with ⟨rfl, rfl⟩ | ⟨rfl, rfl⟩ | ⟨r, -, -, rfl⟩
  · dsimp only
    rcases handleLogin_storage env given a.storage with hsame | ⟨-, hmade⟩
    · rwa [hsame]
    · rw [hmade]
      exact h
  · dsimp only
    rw [handleCreateTestUser_storage]
    exact h.storeRole (hnew rfl) _
  · exact h

theorem serve_frame (hserve : a.serve env req hd given = some (reply, a')) :
    a'.admitted = a.admitted ∧ a'.history = a.history := by
  rcases serve_cases hserve with ⟨-, rfl⟩ | ⟨-, rfl⟩ | ⟨r, -, -, rfl⟩ <;> exact ⟨rfl, rfl⟩

theorem serve_step_cases {i : ℕ} (hstep : Server.step env (.serve i given) a = some a') :
    ∃ req hd reply a₁, a.admitted[i]? = some (req, hd)
      ∧ a.serve env req hd given = some (reply, a₁)
      ∧ a' = ⟨a₁.storage, a₁.log, a.admitted.eraseIdx i,
        a.history ++ [.served req hd given reply]⟩ := by
  unfold Server.step at hstep
  dsimp only at hstep
  split at hstep
  · cases hstep
  rename_i req hd hi
  split at hstep
  · cases hstep
  rename_i reply a₁ hserve
  obtain rfl := Option.some.inj hstep
  obtain ⟨hadmitted, hhistory⟩ := serve_frame hserve
  exact ⟨req, hd, reply, a₁, hi, hserve, by rw [hadmitted, hhistory]⟩

end Serve

section Admission

variable {now : ℤ} {s : Storage} {req : Request} {hd : Handler}

theorem handled_cases (h : serveHTTP now s req = .handled hd) :
    hd = route req.method req.path
      ∧ (exempt req.path = true ∨ ∃ token, s.getToken req.clientToken = some token) := by
  unfold serveHTTP at h
  split_ifs at h
  by_cases hpath : exempt req.path = true
  · rw [authMiddleware, if_pos hpath] at h
    cases h
    exact ⟨rfl, .inl hpath⟩
  by_cases hvalid : ValidToken now s req.clientToken
  · obtain ⟨-, token, htoken, -⟩ := hvalid
    split at h <;> cases h
    exact ⟨rfl, .inr ⟨token, htoken⟩⟩
  · have := mt (authMiddleware_of_not_valid req.path hvalid).mp hpath
    split at h
    · cases h
    · exact absurd ‹_› this

theorem not_exempt_createToken {method : Method} {path : Bytes}
    (h : route method path = .createToken) : exempt path = false := by
  rw [← Bool.not_eq_true]
  intro hpath
  by_cases hopen : Open method path
  · obtain ⟨rfl, rfl | rfl⟩ := hopen
    · rw [show route .post (slash :: login) = .login by decide +kernel] at h
      cases h
    · rw [show route .post (slash :: createTestUser) = .createTestUser by decide +kernel] at h
      cases h
  · rw [(route_exempt_iff hpath).mpr hopen] at h
    cases h

theorem TokensAre.getToken {pb : Codecs} {P : Bytes → Prop} (h : TokensAre pb P s) {k : Bytes}
    {token : Token} (ht : s.getToken k = some token) : P k := by
  obtain ⟨hhas, rfl⟩ := h.sound.byId_iff.mp ht
  exact h.rows token hhas

end Admission

end Rhosus.Api
