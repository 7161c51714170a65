import Rhosus.Api.Tokens

/-!
# The router

`Router` serves the paths below `/sys` by the handlers it names, each for its methods, and gives
every other request to `HandleFilesystem`. `AuthMiddleware` stands before all of them. It lets two
paths pass without a token, whatever slashes are around them and whatever the method is, where the
router has a handler for one spelling and one method. What it has none for gets to the files
(`filesystem_guarded_iff`).

As `mux` documents it, routes are tested in the order they were added and the first match is taken,
with middlewares before its handler; a variable matches up to the next slash; a path that is not
clean is redirected before any of this, so that those here are clean ones. `cors` answers a
preflight request by itself: one with `OPTIONS` and an `Access-Control-Request-Method`.
-/

namespace Rhosus.Api

open Registry

/-- The methods that have a name in `net/http` or in a route, but for `CONNECT` and `TRACE`. -/
def Method.names : List String :=
  ["GET", "HEAD", "POST", "PUT", "PATCH", "DELETE", "LIST", "OPTIONS"]

inductive Method
  | get
  | head
  | post
  | put
  | patch
  | delete
  | list
  | options
  | other (name : String) (h : name ∉ Method.names)
  deriving DecidableEq

inductive Handler
  | login
  | makeDir
  | createTestUser
  | createUpdatePolicy
  | getPolicy
  | deletePolicy
  | listPolicies
  | createToken
  | revokeToken
  | getToken
  | listTokens
  | filesystem
  deriving DecidableEq

/-- A component of the path of a route: a text, or a variable, which matches any that is not
empty. -/
inductive Component
  | text (s : Bytes)
  | var
  deriving DecidableEq

def Component.admits : Component → Bytes → Bool
  | .text s, x => s = x
  | .var, x => x ≠ []

/-- The path is a slash and a component, for each of these in turn. -/
def matchPath : List Component → Bytes → Bool
  | [], path => path = []
  | c :: cs, path =>
    match path with
    | [] => false
    | b :: rest =>
      b = slash && c.admits (rest.takeWhile (· ≠ slash))
        && matchPath cs (rest.dropWhile (· ≠ slash))

structure Route where
  path : List Component
  methods : List Method
  handler : Handler

def text (s : String) : Component := .text s.toUTF8.toList

/-- The routes below `/sys`, in the order they are tried in. -/
def routes : List Route :=
  [⟨[text "sys", text "login"], [.post], .login⟩,
    ⟨[text "sys", text "mkdir"], [.post], .makeDir⟩,
    ⟨[text "sys", text "create-test-user"], [.post], .createTestUser⟩,
    ⟨[text "sys", text "policies", .var], [.post, .put], .createUpdatePolicy⟩,
    ⟨[text "sys", text "policies", .var], [.get], .getPolicy⟩,
    ⟨[text "sys", text "policies", .var], [.delete], .deletePolicy⟩,
    ⟨[text "sys", text "policies"], [.list], .listPolicies⟩,
    ⟨[text "sys", text "tokens", text "create"], [.post], .createToken⟩,
    ⟨[text "sys", text "tokens", .var], [.delete], .revokeToken⟩,
    ⟨[text "sys", text "tokens", .var], [.get], .getToken⟩,
    ⟨[text "sys", text "tokens"], [.list], .listTokens⟩]

def Route.handles (r : Route) (method : Method) (path : Bytes) : Bool :=
  r.methods.contains method && matchPath r.path path

/-- The handler of the first route that matches; `PathPrefix("/")` matches every path. -/
def route (method : Method) (path : Bytes) : Handler :=
  match routes.find? fun r => r.handles method path with
  | some r => r.handler
  | none => .filesystem

/-- `preflight` tells whether there is an `Access-Control-Request-Method`. -/
structure Request where
  method : Method
  path : Bytes
  clientToken : Bytes
  preflight : Bool

inductive Response
  /-- The answer of `cors` itself. -/
  | preflight
  | unauthorized (message : String)
  | handled (h : Handler)
  deriving DecidableEq

/-- The handler that `Router` builds. -/
def serveHTTP (now : ℤ) (s : Storage) (req : Request) : Response :=
  if req.method = .options && req.preflight then .preflight
  else
    match authMiddleware now s req.path req.clientToken with
    | .unauthorized message => .unauthorized message
    | .pass => .handled (route req.method req.path)

/-- A token that is stored and has not expired. -/
def ValidToken (now : ℤ) (s : Storage) (clientToken : Bytes) : Prop :=
  clientToken ≠ [] ∧ ∃ token, s.getToken clientToken = some token ∧ expired now token = false

section Match

theorem trim_slash_cons {x : Bytes} (hhead : x.head? ≠ some slash)
    (hlast : x.getLast? ≠ some slash) : trim (slash :: x) = x := by
  have hdrop : x.dropWhile (· = slash) = x := by
    cases x with
    | nil => rfl
    | cons c cs =>
      rw [List.dropWhile_cons_of_neg]
      simpa using hhead
  rw [trim, List.dropWhile_cons_of_pos (by simp), hdrop, List.rdropWhile_eq_self_iff]
  intro hne
  simpa [List.getLast?_eq_some_getLast hne] using hlast

theorem matchPath_cons {c : Component} {cs : List Component} {path : Bytes}
    (h : matchPath (c :: cs) path = true) : ∃ rest, path = slash :: rest
      ∧ c.admits (rest.takeWhile (· ≠ slash)) = true
      ∧ matchPath cs (rest.dropWhile (· ≠ slash)) = true := by
  cases path with
  | nil => cases h
  | cons b rest =>
    simp only [matchPath, Bool.and_eq_true, decide_eq_true_eq] at h
    obtain ⟨⟨rfl, hadmits⟩, hrest⟩ := h
    exact ⟨rest, rfl, hadmits, hrest⟩

theorem ne_nil_of_admits {c : Component} {x : Bytes} (hc : c ≠ .text [])
    (h : c.admits x = true) : x ≠ [] := by
  rintro rfl
  cases c with
  | text s =>
    obtain rfl : s = [] := by simpa [Component.admits] using h
    exact hc rfl
  | var => simp [Component.admits] at h

/-- A path that matches some components has a slash before the first and none after the last. -/
theorem matchPath_ends : ∀ {cs : List Component} {path : Bytes}, cs ≠ [] →
    (∀ c ∈ cs, c ≠ .text []) → matchPath cs path = true →
      ∃ x, path = slash :: x ∧ x ≠ [] ∧ x.head? ≠ some slash ∧ x.getLast? ≠ some slash
  | [], _, h, _, _ => absurd rfl h
  | c :: cs, path, _, hcs, h => by
    obtain ⟨rest, rfl, hadmits, hrest⟩ := matchPath_cons h
    have hx := ne_nil_of_admits (hcs c List.mem_cons_self) hadmits
    have hslash : ∀ b ∈ rest.takeWhile (· ≠ slash), b ≠ slash := fun b hb => by
      simpa using List.mem_takeWhile_imp hb
    have hsplit := List.takeWhile_append_dropWhile (p := (· ≠ slash)) (l := rest)
    generalize rest.takeWhile (· ≠ slash) = x at hx hslash hsplit
    generalize rest.dropWhile (· ≠ slash) = rest' at hrest hsplit
    subst hsplit
    have hhead : (x ++ rest').head? ≠ some slash := fun hh => by
      rw [List.head?_append_of_ne_nil x hx] at hh
      exact hslash _ (List.mem_of_mem_head? hh) rfl
    refine ⟨x ++ rest', rfl, by simp [hx], hhead, fun hl => ?_⟩
    rcases cs with _ | ⟨c', cs⟩
    · obtain rfl : rest' = [] := by simpa [matchPath] using hrest
      rw [List.append_nil] at hl
      exact hslash _ (List.mem_of_mem_getLast? hl) rfl
    · obtain ⟨y, rfl, hy, -, hlast⟩ := matchPath_ends (List.cons_ne_nil c' cs)
        (fun c hc => hcs c (List.mem_cons_of_mem _ hc)) hrest
      rw [List.getLast?_append_of_ne_nil _ (List.cons_ne_nil _ _),
        List.getLast?_cons_of_ne_nil hy] at hl
      exact hlast hl

theorem trim_of_matchPath {cs : List Component} {path : Bytes} (hcs : cs ≠ [])
    (htext : ∀ c ∈ cs, c ≠ .text []) (h : matchPath cs path = true) :
    path = slash :: trim path := by
  obtain ⟨x, rfl, -, hhead, hlast⟩ := matchPath_ends hcs htext h
  rw [trim_slash_cons hhead hlast]

end Match

section Reach

variable {method : Method} {path : Bytes}

/-- The two requests that are served without a token. -/
def Open (method : Method) (path : Bytes) : Prop :=
  method = .post ∧ (path = slash :: login ∨ path = slash :: createTestUser)

theorem route_of_trim_ne (h : path ≠ slash :: trim path) : route method path = .filesystem := by
  have hroutes : ∀ r ∈ routes, r.path ≠ [] ∧ ∀ c ∈ r.path, c ≠ .text [] := by decide +kernel
  have hnone : routes.find? (fun r => r.handles method path) = none := by
    rw [List.find?_eq_none]
    intro r hr hmatch
    obtain ⟨hne, htext⟩ := hroutes r hr
    exact h (trim_of_matchPath hne htext (Bool.and_eq_true_iff.mp hmatch).2)
  rw [route, hnone]

theorem route_login : route method (slash :: login) = .filesystem ↔ method ≠ .post := by
  cases method with
  | other name => exact iff_of_true rfl nofun
  | _ => decide +kernel

theorem route_createTestUser :
    route method (slash :: createTestUser) = .filesystem ↔ method ≠ .post := by
  cases method with
  | other name => exact iff_of_true rfl nofun
  | _ => decide +kernel

/-- Of the requests that need no token, those get to the files that are not one of the two. -/
theorem route_exempt_iff (h : exempt path = true) :
    route method path = .filesystem ↔ ¬ Open method path := by
  have hlogin : trim (slash :: login) = login := by decide +kernel
  have huser : trim (slash :: createTestUser) = createTestUser := by decide +kernel
  by_cases hpath : path = slash :: trim path
  · rw [exempt, Bool.or_eq_true, decide_eq_true_eq, decide_eq_true_eq] at h
    rcases h with h | h <;> rw [h] at hpath <;> subst hpath
    · exact route_login.trans (not_congr (and_iff_left (.inl rfl)).symm)
    · exact route_createTestUser.trans (not_congr (and_iff_left (.inr rfl)).symm)
  · refine iff_of_true (route_of_trim_ne hpath) ?_
    rintro ⟨-, rfl | rfl⟩
    · rw [hlogin] at hpath
      exact hpath rfl
    · rw [huser] at hpath
      exact hpath rfl

end Reach

theorem authMiddleware_of_not_valid {now : ℤ} {s : Storage} {clientToken : Bytes} (path : Bytes)
    (h : ¬ ValidToken now s clientToken) :
    authMiddleware now s path clientToken = .pass ↔ exempt path = true := by
  unfold authMiddleware
  split_ifs with hpath hnone
  · simp [hpath]
  · simp [hpath]
  · refine iff_of_false (fun hpass => h ?_) hpath
    split at hpass
    · cases hpass
    · rename_i token htoken
      split_ifs at hpass with hexp
      exact ⟨hnone, token, htoken, by simpa using hexp⟩

/-- A request without a valid token is kept from `HandleFilesystem` if and only if it is to another
path than the two that need none, whatever slashes are around them, or is one of the two requests
that have a handler of their own, or is answered by `cors`. -/
theorem filesystem_guarded_iff (now : ℤ) (s : Storage) (req : Request)
    (h : ¬ ValidToken now s req.clientToken) :
    serveHTTP now s req ≠ .handled .filesystem
      ↔ exempt req.path = false ∨ Open req.method req.path
        ∨ req.method = .options ∧ req.preflight = true := by
  unfold serveHTTP
  by_cases hpre : req.method = .options ∧ req.preflight = true
  · simp [hpre]
  rw [if_neg (by simpa using hpre), or_iff_left hpre]
  have hauth := authMiddleware_of_not_valid req.path h
  split
  · rename_i message hmessage
    rw [hmessage] at hauth
    have : exempt req.path = false := by simpa using hauth
    simp [this]
  · rename_i hpass
    have hexempt := hauth.mp hpass
    rw [hexempt]
    simp only [ne_eq, Response.handled.injEq, route_exempt_iff hexempt, not_not, Bool.true_eq_false,
      false_or]

section Witness

def fileRequest : Request := ⟨.get, "/secret".toUTF8.toList, [], false⟩

theorem filesystem_guarded_iff_fileRequest :
    serveHTTP 0 .empty fileRequest ≠ .handled .filesystem :=
  (filesystem_guarded_iff 0 .empty fileRequest (fun h => h.1 rfl)).mpr (.inl (by decide +kernel))

/-- A `GET` of the path of the login, without a token. -/
def loginFile : Request := ⟨.get, slash :: login, [], false⟩

theorem filesystem_reached_loginFile : ¬ ValidToken 0 .empty loginFile.clientToken
    ∧ serveHTTP 0 .empty loginFile = .handled .filesystem :=
  ⟨fun h => h.1 rfl, by decide +kernel⟩

end Witness

end Rhosus.Api
