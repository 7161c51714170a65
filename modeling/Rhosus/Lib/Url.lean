import Rhosus.Lib.Uvarint
import Mathlib.Data.List.TakeWhile

/-!
# The URLs of requests

The target of a request is taken apart into the fields of a URL, as `net/url` does it. The path is
decoded, and is kept as it was spelt too where it would be encoded in another way. `URL.string` puts
the fields together again. A target that has nothing to decode comes back as its path
(`string_of_plain`). Any other comes back with more bytes that are not slashes than its path has
(`plain_of_solid_le`).
-/

namespace Rhosus.Url

def byte (c : Char) : UInt8 := c.toUInt8

def bytes (s : String) : Bytes := s.toList.map byte

def isLetter (c : UInt8) : Bool :=
  byte 'a' ≤ c && c ≤ byte 'z' || byte 'A' ≤ c && c ≤ byte 'Z'

def isDigit (c : UInt8) : Bool := byte '0' ≤ c && c ≤ byte '9'

section Encoding

def unreserved (c : UInt8) : Bool := isLetter c || isDigit c || (bytes "-_.~").contains c

/-- `shouldEscape` for a path. -/
def escapesInPath (c : UInt8) : Bool := !(unreserved c || (bytes "$&+,/:;=@").contains c)

/-- `shouldEscape` for a host. -/
def escapesInHost (c : UInt8) : Bool :=
  !(unreserved c || (bytes "!$&'()*+,;=:[]<>\"").contains c)

/-- A digit of `upperhex`. -/
def upperhex (n : ℕ) : UInt8 := if n < 10 then UInt8.ofNat (48 + n) else UInt8.ofNat (55 + n)

def escape (should : UInt8 → Bool) (s : Bytes) : Bytes :=
  s.flatMap fun c =>
    if should c then [byte '%', upperhex (c.toNat / 16), upperhex (c.toNat % 16)] else [c]

def unhex (c : UInt8) : Option ℕ :=
  if isDigit c then some (c.toNat - 48)
  else if byte 'a' ≤ c && c ≤ byte 'f' then some (c.toNat - 87)
  else if byte 'A' ≤ c && c ≤ byte 'F' then some (c.toNat - 55)
  else none

/-- `unescape` of a path: nothing where a `%` has not two digits after it. -/
def unescape : Bytes → Option Bytes
  | [] => some []
  | c :: cs =>
    if c = byte '%' then
      match cs with
      | a :: b :: rest =>
        match unhex a, unhex b with
        | some x, some y => (unescape rest).map (UInt8.ofNat (16 * x + y) :: ·)
        | _, _ => none
      | _ => none
    else (unescape cs).map (c :: ·)

/-- What may stand for itself in an encoded path. -/
def isValid (c : UInt8) : Bool := (bytes "!$&'()*+,;=:@[]").contains c || !escapesInPath c

def validEncoded (s : Bytes) : Bool := s.all fun c => c = byte '%' || isValid c

end Encoding

/-- `user` is the text of the user information. There is no fragment in a request. -/
structure URL where
  scheme : Bytes
  opaquePart : Bytes
  user : Option Bytes
  host : Bytes
  path : Bytes
  rawPath : Bytes
  forceQuery : Bool
  rawQuery : Bytes
  deriving DecidableEq

namespace URL

def empty : URL := ⟨[], [], none, [], [], [], false, []⟩

def setPath (p : Bytes) (u : URL) : Option URL :=
  (unescape p).map fun path =>
    { u with path, rawPath := if escape escapesInPath path = p then [] else p }

def escapedPath (u : URL) : Bytes :=
  if u.rawPath ≠ [] ∧ validEncoded u.rawPath ∧ unescape u.rawPath = some u.path then u.rawPath
  else if u.path = bytes "*" then bytes "*"
  else escape escapesInPath u.path

def schemePart (u : URL) : Bytes := if u.scheme = [] then [] else u.scheme ++ bytes ":"

def authority (u : URL) : Bytes :=
  if u.scheme = [] ∧ u.host = [] ∧ u.user = none then []
  else (if u.host = [] ∧ u.path = [] ∧ u.user = none then [] else bytes "//")
    ++ (match u.user with | some ui => ui ++ bytes "@" | none => [])
    ++ escape escapesInHost u.host

def start (u : URL) : Bytes :=
  let buf := u.schemePart ++ u.authority
  let path := u.escapedPath
  if path ≠ [] ∧ path.head? ≠ some (byte '/') ∧ u.host ≠ [] then buf ++ bytes "/"
  else if buf = [] ∧ byte ':' ∈ path.takeWhile (· ≠ byte '/') then bytes "./"
  else buf

def query (u : URL) : Bytes :=
  if u.forceQuery ∨ u.rawQuery ≠ [] then bytes "?" ++ u.rawQuery else []

def string (u : URL) : Bytes :=
  if u.opaquePart ≠ [] then u.schemePart ++ u.opaquePart ++ u.query
  else u.start ++ u.escapedPath ++ u.query

end URL

section Parse

def isScheme (c : UInt8) : Bool := isLetter c || isDigit c || (bytes "+-.").contains c

/-- The scheme, if there is one, and the rest; nothing where there is a colon at the start. -/
def getScheme (raw : Bytes) : Option (Bytes × Bytes) :=
  let pre := raw.takeWhile isScheme
  match raw.dropWhile isScheme with
  | [] => some ([], raw)
  | c :: rest =>
    if c ≠ byte ':' then some ([], raw)
    else
      match pre with
      | [] => none
      | a :: _ => if isLetter a then some (pre, rest) else some ([], raw)

def toLower (c : UInt8) : UInt8 := if byte 'A' ≤ c && c ≤ byte 'Z' then c + 32 else c

/-- The part before the query, `ForceQuery` and `RawQuery`. -/
def splitQuery (rest : Bytes) : Bytes × Bool × Bytes :=
  match rest.dropWhile (· ≠ byte '?') with
  | [] => (rest, false, [])
  | [_] => (rest.takeWhile (· ≠ byte '?'), true, [])
  | _ :: q => (rest.takeWhile (· ≠ byte '?'), false, q)

def isControl (c : UInt8) : Bool := c < 32 || c = 127

/-- `ParseRequestURI`; `parseAuthority` gives the user information and the host. -/
def parseRequestURI (parseAuthority : Bytes → Option (Option Bytes × Bytes)) (raw : Bytes) :
    Option URL :=
  if raw.any isControl || raw = [] then none
  else if raw = bytes "*" then some { URL.empty with path := bytes "*" }
  else
    match getScheme raw with
    | none => none
    | some (scheme, rest) =>
      let (rest, forceQuery, rawQuery) := splitQuery rest
      let u := { URL.empty with scheme := scheme.map toLower, forceQuery, rawQuery }
      if rest.head? ≠ some (byte '/') then
        if scheme = [] then none else some { u with opaquePart := rest }
      else if scheme ≠ [] ∧ rest.take 2 = bytes "//" then
        match parseAuthority ((rest.drop 2).takeWhile (· ≠ byte '/')) with
        | none => none
        | some (user, host) =>
          { u with user, host }.setPath ((rest.drop 2).dropWhile (· ≠ byte '/'))
      else u.setPath rest

/-- A path, or `*`, of bytes that all stand for themselves. -/
def Plain (raw : Bytes) : Prop :=
  (raw.head? = some (byte '/') ∨ raw = bytes "*") ∧ ∀ c ∈ raw, isValid c

instance (raw : Bytes) : Decidable (Plain raw) := inferInstanceAs (Decidable (_ ∧ _))

end Parse

section Bytes

theorem forall_byte {p : UInt8 → Prop} (h : ∀ n < 256, p (UInt8.ofNat n)) (c : UInt8) : p c := by
  simpa using h c.toNat c.toNat_lt

theorem unhex_upperhex : ∀ n < 16, unhex (upperhex n) = some n := by decide

theorem percent_ne_slash : byte '%' ≠ byte '/' := by decide

theorem unhex_slash : unhex (byte '/') = none := by decide

theorem isValid_of_unhex {c : UInt8} : unhex c ≠ none → isValid c = true :=
  forall_byte (p := fun c => unhex c ≠ none → isValid c = true) (by decide +kernel) c

theorem isValid_of_not_escapes {c : UInt8} (h : escapesInPath c = false) : isValid c = true := by
  rw [isValid, h]
  simp

theorem not_isValid_percent : isValid (byte '%') = false := by decide

theorem not_isValid_question : isValid (byte '?') = false := by decide

def solid (s : Bytes) : ℕ := s.countP (· ≠ byte '/')

theorem solid_append (s t : Bytes) : solid (s ++ t) = solid s + solid t := List.countP_append

theorem solid_pos {c : UInt8} {s : Bytes} (hc : c ≠ byte '/') (h : c ∈ s) : 0 < solid s :=
  List.countP_pos_iff.mpr ⟨c, h, by simpa using hc⟩

theorem solid_cons_le (c : UInt8) (s : Bytes) : solid (c :: s) ≤ solid s + 1 := by
  unfold solid
  rw [List.countP_cons]
  split <;> omega

theorem solid_cons {c : UInt8} (h : c ≠ byte '/') (s : Bytes) : solid (c :: s) = solid s + 1 := by
  simp [solid, h]

end Bytes

section Encoding

variable {should : UInt8 → Bool}

theorem escape_cons (c : UInt8) (cs : Bytes) : escape should (c :: cs) =
    (if should c then [byte '%', upperhex (c.toNat / 16), upperhex (c.toNat % 16)] else [c])
      ++ escape should cs := List.flatMap_cons

theorem unescape_cons {c : UInt8} (h : c ≠ byte '%') (cs : Bytes) :
    unescape (c :: cs) = (unescape cs).map (c :: ·) := by
  rw [unescape.eq_def]
  exact if_neg h

theorem unescape_percent_cons {a b : UInt8} {x y : ℕ} (ha : unhex a = some x)
    (hb : unhex b = some y) (rest : Bytes) : unescape (byte '%' :: a :: b :: rest)
      = (unescape rest).map (UInt8.ofNat (16 * x + y) :: ·) := by
  rw [unescape.eq_def]
  simp only [if_true, ha, hb]

theorem unescape_escape (hp : should (byte '%') = true) :
    ∀ s : Bytes, unescape (escape should s) = some s
  | [] => rfl
  | c :: cs => by
    rw [escape_cons]
    by_cases hc : should c = true
    · have hlo : c.toNat / 16 < 16 := by
        have := c.toNat_lt
        omega
      have hhi : c.toNat % 16 < 16 := Nat.mod_lt _ (by norm_num)
      rw [if_pos hc]
      change unescape (byte '%' :: _ :: _ :: escape should cs) = _
      rw [unescape_percent_cons (unhex_upperhex _ hlo) (unhex_upperhex _ hhi),
        unescape_escape hp cs, Nat.div_add_mod, UInt8.ofNat_toNat]
      rfl
    · have hne : c ≠ byte '%' := by
        rintro rfl
        exact hc hp
      rw [if_neg hc, List.singleton_append, unescape_cons hne, unescape_escape hp cs]
      rfl

theorem unescape_of_notMem : ∀ {s : Bytes}, byte '%' ∉ s → unescape s = some s
  | [], _ => rfl
  | c :: cs, h => by
    rw [List.mem_cons, not_or] at h
    rw [unescape_cons (Ne.symm h.1), unescape_of_notMem h.2]
    rfl

theorem escape_of_notMem : ∀ {s : Bytes}, byte '%' ∉ escape should s →
    (∀ c ∈ s, should c = false) ∧ escape should s = s
  | [], _ => ⟨nofun, rfl⟩
  | c :: cs, h => by
    rw [escape_cons, List.mem_append, not_or] at h
    have hc : should c = false := by
      by_contra hc
      rw [if_pos (by simpa using hc)] at h
      exact h.1 List.mem_cons_self
    obtain ⟨hcs, heq⟩ := escape_of_notMem h.2
    rw [escape_cons, hc, heq]
    exact ⟨List.forall_mem_cons.mpr ⟨hc, hcs⟩, rfl⟩

theorem unescape_percent {cs p : Bytes} (h : unescape (byte '%' :: cs) = some p) :
    ∃ a b rest c p', cs = a :: b :: rest ∧ unhex a ≠ none ∧ unhex b ≠ none
      ∧ unescape rest = some p' ∧ p = c :: p' := by
  rw [unescape.eq_def] at h
  simp only [if_true] at h
  split at h
  · rename_i a b rest
    split at h
    · rename_i x y hx hy
      obtain ⟨p', hp', rfl⟩ := Option.map_eq_some_iff.mp h
      exact ⟨a, b, rest, _, p', rfl, by simp [hx], by simp [hy], hp', rfl⟩
    · cases h
  · cases h

theorem ne_slash_of_unhex {c : UInt8} (h : unhex c ≠ none) : c ≠ byte '/' := by
  rintro rfl
  exact h unhex_slash

/-- Decoding does not add to the bytes that are not slashes, and an escape takes from them. -/
theorem solid_unescape : ∀ {e p : Bytes}, unescape e = some p →
    solid p ≤ solid e ∧ (byte '%' ∈ e → solid p < solid e)
  | [], p, h => by
    cases h
    exact ⟨le_rfl, nofun⟩
  | c :: cs, p, h => by
    by_cases hc : c = byte '%'
    · subst hc
      obtain ⟨a, b, rest, c, p', rfl, ha, hb, hrest, rfl⟩ := unescape_percent h
      have hp := (solid_unescape hrest).1
      have hc := solid_cons_le c p'
      have he : solid (byte '%' :: a :: b :: rest) = solid rest + 1 + 1 + 1 := by
        rw [solid_cons percent_ne_slash, solid_cons (ne_slash_of_unhex ha),
          solid_cons (ne_slash_of_unhex hb)]
      omega
    · rw [unescape_cons hc] at h
      obtain ⟨p', hp', rfl⟩ := Option.map_eq_some_iff.mp h
      obtain ⟨hle, hlt⟩ := solid_unescape hp'
      have hp := solid_append [c] p'
      have he := solid_append [c] cs
      rw [List.singleton_append] at hp he
      refine ⟨by omega, fun hmem => ?_⟩
      have := hlt ((List.mem_cons.mp hmem).resolve_left (Ne.symm hc))
      omega

/-- A byte that is neither of an escape nor one that may be is not changed. -/
theorem mem_of_unescape {c : UInt8} (hc : c ≠ byte '%') (hhex : unhex c = none) :
    ∀ {e p : Bytes}, unescape e = some p → c ∈ e → c ∈ p
  | d :: ds, p, h, hmem => by
    by_cases hd : d = byte '%'
    · subst hd
      obtain ⟨a, b, rest, x, p', rfl, ha, hb, hrest, rfl⟩ := unescape_percent h
      have hrest' : c ∈ rest := by
        simp only [List.mem_cons] at hmem
        rcases hmem with rfl | rfl | rfl | hmem
        · exact absurd rfl hc
        · exact absurd hhex ha
        · exact absurd hhex hb
        · exact hmem
      exact List.mem_cons_of_mem _ (mem_of_unescape hc hhex hrest hrest')
    · rw [unescape_cons hd] at h
      obtain ⟨p', hp', rfl⟩ := Option.map_eq_some_iff.mp h
      rcases List.mem_cons.mp hmem with rfl | hmem
      · exact List.mem_cons_self
      · exact List.mem_cons_of_mem _ (mem_of_unescape hc hhex hp' hmem)

/-- The path as it is written is one that decodes to it. -/
theorem URL.unescape_escapedPath (u : URL) : unescape u.escapedPath = some u.path := by
  unfold escapedPath
  split_ifs with h hstar
  · exact h.2.2
  · rw [hstar]
    decide
  · exact unescape_escape (by decide) _

end Encoding

section Parse

variable {parseAuthority : Bytes → Option (Option Bytes × Bytes)} {raw rest rawQuery : Bytes}
  {forceQuery : Bool} {u : URL}

theorem getScheme_cases {scheme : Bytes} (h : getScheme raw = some (scheme, rest)) :
    scheme = [] ∧ rest = raw ∨ scheme ≠ [] ∧ ∃ a ∈ raw.head?, isLetter a = true := by
  unfold getScheme at h
  dsimp only at h
  split at h
  · cases h
    exact .inl ⟨rfl, rfl⟩
  split_ifs at h
  · cases h
    exact .inl ⟨rfl, rfl⟩
  split at h
  · cases h
  · rename_i a as hpre
    split_ifs at h with ha <;> cases h
    · refine .inr ⟨hpre ▸ List.cons_ne_nil _ _, a, ?_, ha⟩
      have hprefix : raw.takeWhile isScheme <+: raw := List.takeWhile_prefix _
      rw [hpre] at hprefix
      obtain ⟨t, rfl⟩ := hprefix
      rfl
    · exact .inl ⟨rfl, rfl⟩

theorem splitQuery_eq (h : splitQuery raw = (rest, forceQuery, rawQuery))
    (hq : ¬(forceQuery = true ∨ rawQuery ≠ [])) : rest = raw := by
  unfold splitQuery at h
  split at h <;> cases h
  · rfl
  · exact absurd (.inl rfl) hq
  · rename_i hne _
    exact absurd (.inr hne) hq

theorem splitQuery_of_notMem (h : byte '?' ∉ raw) : splitQuery raw = (raw, false, []) := by
  have hdrop : raw.dropWhile (· ≠ byte '?') = [] := by
    rw [List.dropWhile_eq_nil_iff]
    intro c hc
    simpa using fun h' : c = byte '?' => h (h' ▸ hc)
  rw [splitQuery, hdrop]

/-- What a target can be: a `*`, one with a scheme, or a path with a query. -/
theorem parseRequestURI_cases (h : parseRequestURI parseAuthority raw = some u) :
    raw = bytes "*" ∧ u = { URL.empty with path := bytes "*" }
      ∨ (∃ a ∈ raw.head?, isLetter a = true)
        ∧ u.scheme ≠ [] ∧ (u.opaquePart = [] ∨ u.path = [])
      ∨ ∃ rest forceQuery rawQuery, splitQuery raw = (rest, forceQuery, rawQuery)
        ∧ rest.head? = some (byte '/')
        ∧ { URL.empty with forceQuery, rawQuery }.setPath rest = some u := by
  unfold parseRequestURI at h
  split_ifs at h with hbad hstar
  · cases h
    exact .inl ⟨hstar, rfl⟩
  right
  rcases hs : getScheme raw with _ | ⟨scheme, rest⟩ <;> rw [hs] at h
  · cases h
  rcases hq : splitQuery rest with ⟨before, forceQuery, rawQuery⟩
  simp only [hq] at h
  rcases getScheme_cases hs with ⟨rfl, rfl⟩ | ⟨hne, ha⟩
  · right
    simp only [if_true, ne_eq, not_true_eq_false, false_and, if_false] at h
    split_ifs at h with hhead
    exact ⟨before, forceQuery, rawQuery, hq, hhead, h⟩
  · refine .inl ⟨ha, ?_⟩
    have hlower : scheme.map toLower ≠ [] := by simpa using hne
    split_ifs at h with hhead
    · cases h
      exact ⟨hlower, .inr rfl⟩
    · split at h
      · cases h
      · obtain ⟨path, -, rfl⟩ := Option.map_eq_some_iff.mp h
        exact ⟨hlower, .inl rfl⟩
    · obtain ⟨path, -, rfl⟩ := Option.map_eq_some_iff.mp h
      exact ⟨hlower, .inl rfl⟩

theorem solid_path_lt (hscheme : u.scheme ≠ []) (hpath : u.opaquePart = [] ∨ u.path = []) :
    solid u.path < solid u.string := by
  have hcolon : byte ':' ∈ u.schemePart := by
    rw [URL.schemePart, if_neg hscheme]
    exact List.mem_append_right _ List.mem_cons_self
  have hne : byte ':' ≠ byte '/' := by decide
  unfold URL.string
  split_ifs with ho
  · rw [hpath.resolve_left ho]
    exact solid_pos hne (List.mem_append_left _ (List.mem_append_left _ hcolon))
  · have hpath := (solid_unescape u.unescape_escapedPath).1
    have hstart : 0 < solid u.start := by
      unfold URL.start
      dsimp only
      split_ifs with h1 h2
      · exact solid_pos hne (List.mem_append_left _ (List.mem_append_left _ hcolon))
      · decide
      · exact solid_pos hne (List.mem_append_left _ hcolon)
    rw [solid_append, solid_append]
    omega

/-- Where the path has nothing to decode as it is written, it had nothing in the target. -/
theorem isValid_of_setPath {u' : URL} (h : u'.setPath raw = some u)
    (hhead : raw.head? = some (byte '/')) (hesc : byte '%' ∉ u.escapedPath) :
    ∀ c ∈ raw, isValid c = true := by
  obtain ⟨path, hpath, rfl⟩ := Option.map_eq_some_iff.mp h
  obtain ⟨cs, rfl⟩ := List.head?_eq_some_iff.mp hhead
  have hstar : path ≠ bytes "*" := by
    rintro rfl
    rw [unescape_cons (Ne.symm percent_ne_slash)] at hpath
    obtain ⟨p', -, hp'⟩ := Option.map_eq_some_iff.mp hpath
    cases hp'
  have hkeep : byte '%' ∉ escape escapesInPath path → _ := fun h => (escape_of_notMem h).1
  unfold URL.escapedPath at hesc
  simp only [if_neg hstar] at hesc
  by_cases hsame : escape escapesInPath path = byte '/' :: cs
  · simp only [if_pos hsame, ne_eq, not_true_eq_false, false_and, if_false] at hesc
    obtain ⟨hkeep, heq⟩ := escape_of_notMem hesc
    rw [← hsame, heq]
    exact fun c hc => isValid_of_not_escapes (hkeep c hc)
  simp only [if_neg hsame, hpath, and_true, ne_eq, reduceCtorEq, not_false_eq_true,
    true_and] at hesc
  by_cases hv : validEncoded (byte '/' :: cs) = true
  · rw [if_pos hv] at hesc
    intro c hc
    have := List.all_eq_true.mp hv c hc
    rw [Bool.or_eq_true, decide_eq_true_eq] at this
    exact this.resolve_left fun h' => hesc (h' ▸ hc)
  · rw [if_neg hv] at hesc
    -- a byte that may not stand for itself would be in the path, and be escaped there
    obtain ⟨c, hc, hbad⟩ : ∃ c ∈ byte '/' :: cs, ¬(c = byte '%' || isValid c) = true := by
      by_contra hall
      exact hv (List.all_eq_true.mpr fun c hc => by_contra fun hbad => hall ⟨c, hc, hbad⟩)
    rw [Bool.or_eq_true, decide_eq_true_eq, not_or] at hbad
    have hhex : unhex c = none := by
      by_contra hhex
      exact hbad.2 (isValid_of_unhex hhex)
    have := (escape_of_notMem hesc).1 c (mem_of_unescape hbad.1 hhex hpath hc)
    exact absurd (isValid_of_not_escapes this) hbad.2

/-- A target that does not come back with more than its path has is plain. -/
theorem plain_of_solid_le (h : parseRequestURI parseAuthority raw = some u)
    (hle : solid u.string ≤ solid u.path) : Plain raw := by
  rcases parseRequestURI_cases h with ⟨rfl, -⟩ | ⟨-, hscheme, hpath⟩ | ⟨rest, fq, rq, hq, hhead, hu⟩
  · decide +kernel
  · exact absurd (solid_path_lt hscheme hpath) (by omega)
  have hopaque : u.opaquePart = [] := by
    obtain ⟨path, -, rfl⟩ := Option.map_eq_some_iff.mp hu
    rfl
  have hquery : u.query = if fq ∨ rq ≠ [] then bytes "?" ++ rq else [] := by
    obtain ⟨path, -, rfl⟩ := Option.map_eq_some_iff.mp hu
    rfl
  obtain ⟨hpath, hesc⟩ := solid_unescape u.unescape_escapedPath
  rw [URL.string, if_neg (not_not.mpr hopaque), solid_append, solid_append, hquery] at hle
  have hnone : ¬(fq = true ∨ rq ≠ []) := by
    intro hsome
    have hpos : 0 < solid (bytes "?" ++ rq) :=
      solid_pos (c := byte '?') (by decide) (List.mem_append_left _ List.mem_cons_self)
    rw [if_pos hsome] at hle
    omega
  obtain rfl := splitQuery_eq hq hnone
  refine ⟨.inl hhead, isValid_of_setPath hu hhead fun hmem => ?_⟩
  have := hesc hmem
  omega

theorem isValid_escapedPath (cs : Bytes) (h : ∀ c ∈ byte '/' :: cs, isValid c = true) :
    URL.escapedPath { URL.empty with
      path := byte '/' :: cs
      rawPath := if escape escapesInPath (byte '/' :: cs) = byte '/' :: cs then []
        else byte '/' :: cs } = byte '/' :: cs := by
  have hmem : byte '%' ∉ byte '/' :: cs := fun hmem => by
    have := h _ hmem
    rw [not_isValid_percent] at this
    cases this
  have hvalid : validEncoded (byte '/' :: cs) = true :=
    List.all_eq_true.mpr fun c hc => by rw [h c hc, Bool.or_true]
  have hstar : byte '/' :: cs ≠ bytes "*" := nofun
  unfold URL.escapedPath
  by_cases hsame : escape escapesInPath (byte '/' :: cs) = byte '/' :: cs
  · simp only [if_pos hsame, ne_eq, not_true_eq_false, false_and, if_false, if_neg hstar]
    exact hsame
  · simp only [if_neg hsame, hvalid, unescape_of_notMem hmem, ne_eq, reduceCtorEq,
      not_false_eq_true, and_self, if_true]

theorem string_of_plain (h : parseRequestURI parseAuthority raw = some u) (hraw : Plain raw) :
    u.string = u.path := by
  obtain ⟨hstart, hvalid⟩ := hraw
  rcases parseRequestURI_cases h with
    ⟨-, rfl⟩ | ⟨⟨a, ha, hletter⟩, -⟩ | ⟨rest, fq, rq, hq, hhead, hu⟩
  · decide +kernel
  · rcases hstart with hstart | rfl
    · rw [hstart] at ha
      cases ha
      exact absurd hletter (by decide)
    · cases ha
      exact absurd hletter (by decide)
  have hmem : ∀ c, isValid c = false → c ∉ raw := fun c hc hmem => by
    rw [hvalid c hmem] at hc
    cases hc
  rw [splitQuery_of_notMem (hmem _ not_isValid_question)] at hq
  cases hq
  obtain ⟨cs, rfl⟩ := List.head?_eq_some_iff.mp hhead
  rw [URL.setPath, unescape_of_notMem (hmem _ not_isValid_percent)] at hu
  cases hu
  have hesc := isValid_escapedPath cs hvalid
  simp only [URL.empty] at hesc ⊢
  simp only [URL.string, ne_eq, not_true_eq_false, if_false, URL.start, hesc, URL.schemePart,
    URL.authority, if_true, and_self, List.append_nil, URL.query, Bool.false_eq_true, or_self]
  simp

end Parse

end Rhosus.Url
