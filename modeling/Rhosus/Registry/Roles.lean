import Rhosus.Registry.Mutators
import Rhosus.Registry.Reload

/-!
# The roles after a restart

Nothing keeps two roles from having the same name. The index of the names has an entry for the role
that was stored last, or none if one of the name was deleted since; a storage loaded from the
backend has it for the one with the greatest id. So a role is found by its name as before if and
only if the last call on the name stored the one with the greatest id of those that are left
(`getRole_restart_iff`).
-/

namespace Rhosus.Registry

namespace FullStorage

def getRole (name : Bytes) (s : FullStorage) : Option Role := s.roles.first .name name

/-- A new storage over the same backend. -/
def loadFromBackend (pb : RoleCodecs) (s : FullStorage) : FullStorage where
  toStorage := .loadFromBackend pb.toCodecs s.backend
  roles := Table.empty.load rolesTable (s.roleBucket.vals.filterMap pb.role.unmarshal)
  roleBucket := s.roleBucket

end FullStorage

inductive RoleOp
  | store (role : Role)
  | delete (role : Role)
  deriving DecidableEq

namespace RoleOp

/-- The call, where every write to the backend succeeds. -/
def run (pb : RoleCodecs) (op : RoleOp) (s : FullStorage) : Except Err Unit × FullStorage :=
  match op with
  | .store role => s.storeRole pb (.ofBool true) role
  | .delete role => s.deleteRole pb (.ofBool true) role

/-- The storage after the call, be it refused or not. -/
def step (pb : RoleCodecs) (op : RoleOp) (s : FullStorage) : Option FullStorage :=
  some (op.run pb s).2

theorem exists_run (pb : RoleCodecs) : ∀ (ops : List RoleOp) (s : FullStorage),
    ∃ s', runSteps (step pb) ops s = some s'
  | [], s => ⟨s, rfl⟩
  | op :: ops, s => exists_run pb ops (op.run pb s).2

/-- The backend takes the key of a role that is stored; one that is deleted is there. -/
def Allowed (op : RoleOp) (s : FullStorage) : Prop :=
  match op with
  | .store role => role.id.length ≤ maxKeySize
  | .delete role => s.roles.byId[role.id]? = some role

instance (op : RoleOp) (s : FullStorage) : Decidable (op.Allowed s) := by
  unfold Allowed
  split <;> infer_instance

def newId : RoleOp → Option Bytes
  | .store role => some role.id
  | .delete _ => none

/-- The call is about the name, and not one to store a role that lacks a value. -/
def On (name : Bytes) : RoleOp → Bool
  | .store role => rolesTable.Full role ∧ role.name = name
  | .delete role => role.name = name

/-- The role that the call leaves behind its name. -/
def left : RoleOp → Option Role
  | .store role => some role
  | .delete _ => none

end RoleOp

/-- The role that the last call on the name stored; none if that deleted one. -/
def lastRole (name : Bytes) (ops : List RoleOp) : Option Role :=
  (ops.filter (RoleOp.On name)).getLast?.bind RoleOp.left

def Remains (ops : List RoleOp) (role : Role) : Prop :=
  .store role ∈ ops ∧ rolesTable.Full role ∧ .delete role ∉ ops

instance (ops : List RoleOp) (role : Role) : Decidable (Remains ops role) :=
  inferInstanceAs (Decidable (_ ∧ _))

instance (ops : List RoleOp) (P : Role → Prop) [DecidablePred P] :
    Decidable (∀ role, Remains ops role → P role) :=
  decidable_of_iff (∀ op ∈ ops, ∀ role ∈ op.left, Remains ops role → P role)
    ⟨fun h role hrole => h _ hrole.1 role rfl hrole, fun h _ _ role _ => h role⟩

section Calls

variable {pb : RoleCodecs} {s : FullStorage} {role : Role}

theorem rolesTable_nameKey (role : Role) : rolesTable.key .name role = [role.name] := rfl

theorem storeRole_of_not_full (h : ¬ rolesTable.Full role) :
    ((RoleOp.store role).run pb s).2 = s := by
  have hnone : s.roles.insertAll rolesTable [role] = none := by
    rw [Table.insertAll_singleton, Table.insert, if_neg h]
  change ((Shelf.roles pb).store [role] _ s).2 = s
  unfold Shelf.store
  rw [show ((Shelf.roles pb).table s).insertAll (Shelf.roles pb).schema [role] = none from hnone]

theorem storeRole_eq {t : Table RoleIndex Role} (hins : s.roles.insert rolesTable role = some t)
    (hlen : role.id.length ≤ maxKeySize) : ((RoleOp.store role).run pb s).2
      = { s with
          roles := t, roleBucket := s.roleBucket.insert role.id (pb.role.marshal role) } := by
  have hkey : ∀ k ∈ [role].map Role.id, storable k = true := by
    intro k hk
    obtain rfl := List.mem_singleton.mp hk
    exact decide_eq_true ⟨(Table.full_of_insert hins).1, hlen⟩
  change ((Shelf.roles pb).store [role] (.ofBool true) s).2 = _
  rw [Shelf.store_ofBool _ _ hkey, Table.insertAll_singleton,
    show ((Shelf.roles pb).table s).insert (Shelf.roles pb).schema role = some t from hins]
  rfl

theorem deleteRole_eq {t : Table RoleIndex Role} (hdel : s.roles.delete rolesTable role = some t) :
    ((RoleOp.delete role).run pb s).2
      = { s with roles := t, roleBucket := s.roleBucket.erase role.id } := by
  change ((Shelf.roles pb).drop [role] (.ofBool true) s).2 = _
  rw [Shelf.drop_ofBool, Table.deleteAll_singleton,
    show ((Shelf.roles pb).table s).delete (Shelf.roles pb).schema role = some t from hdel]
  rfl

end Calls

section History

variable {pb : RoleCodecs} {ops : List RoleOp} {s : FullStorage} {role : Role}

theorem lastRole_append (name : Bytes) (ops : List RoleOp) (op : RoleOp) :
    lastRole name (ops ++ [op]) = if op.On name then op.left else lastRole name ops := by
  unfold lastRole
  rw [List.filter_append]
  by_cases h : op.On name
  · rw [if_pos h, List.filter_cons_of_pos h, List.filter_nil, List.getLast?_concat]
    rfl
  · rw [if_neg h, List.filter_cons_of_neg h, List.filter_nil, List.append_nil]

theorem lastRole_store (name : Bytes) (ops : List RoleOp) (role : Role) :
    lastRole name (ops ++ [.store role])
      = if rolesTable.Full role ∧ role.name = name then some role else lastRole name ops :=
  (lastRole_append name ops _).trans (if_congr decide_eq_true_iff rfl rfl)

theorem lastRole_delete (name : Bytes) (ops : List RoleOp) (role : Role) :
    lastRole name (ops ++ [.delete role])
      = if role.name = name then none else lastRole name ops :=
  (lastRole_append name ops _).trans (if_congr decide_eq_true_iff rfl rfl)

/-- What is known of the storage after the calls. -/
structure Recalls (pb : RoleCodecs) (ops : List RoleOp) (s : FullStorage) : Prop where
  sound : s.roles.Sound rolesTable
  has : ∀ role, s.roles.Has rolesTable role ↔ Remains ops role
  last : ∀ name, s.getRole name = lastRole name ops
  backs : Backs pb.role Role.id (s.roles.Has rolesTable) s.roleBucket
  deleted : ∀ role, .delete role ∈ ops → .store role ∈ ops

theorem recalls_empty : Recalls pb [] .empty where
  sound := Table.sound_empty
  has _ := ⟨fun h => absurd h Table.not_has_empty, fun h => absurd h.1 List.not_mem_nil⟩
  last name := by
    change ((∅ : OrdMap (List Bytes) Role))[[name]]? = none
    simp
  backs := backs_empty fun _ => Table.not_has_empty
  deleted _ h := absurd h List.not_mem_nil

theorem Recalls.store (h : Recalls pb ops s) (hnew : ∀ r, .store r ∈ ops → r.id ≠ role.id)
    (hlen : role.id.length ≤ maxKeySize) :
    Recalls pb (ops ++ [.store role]) ((RoleOp.store role).run pb s).2 := by
  have hdeleted : ∀ r, .delete r ∈ ops ++ [.store role] → .store r ∈ ops ++ [.store role] := by
    intro r hr
    rcases List.mem_append.mp hr with hr | hr
    · exact List.mem_append_left _ (h.deleted r hr)
    · cases List.mem_singleton.mp hr
  have hremains : ∀ r, Remains (ops ++ [.store role]) r
      ↔ rolesTable.Full role ∧ r = role ∨ Remains ops r := by
    intro r
    unfold Remains
    simp only [List.mem_append, List.mem_singleton, RoleOp.store.injEq, reduceCtorEq, or_false]
    constructor
    · rintro ⟨hr | rfl, hfull, hdel⟩
      · exact .inr ⟨hr, hfull, hdel⟩
      · exact .inl ⟨hfull, rfl⟩
    · rintro (⟨hfull, rfl⟩ | ⟨hr, hfull, hdel⟩)
      · exact ⟨.inr rfl, hfull, fun hdel => hnew r (h.deleted r hdel) rfl⟩
      · exact ⟨.inl hr, hfull, hdel⟩
  by_cases hfull : rolesTable.Full role
  · obtain ⟨t, hins⟩ := Table.insert_of_full (t := s.roles) hfull
    rw [storeRole_eq hins hlen]
    have hfree : s.roles.byId[role.id]? = none := by
      rcases hr : s.roles.byId[role.id]? with _ | r
      · rfl
      · obtain ⟨hhas, hid⟩ := h.sound.byId_iff.mp hr
        exact absurd hid (hnew r ((h.has r).mp hhas).1)
    have hhas : ∀ r, t.Has rolesTable r ↔ r = role ∨ s.roles.Has rolesTable r := by
      intro r
      rw [Table.has_insert hins]
      refine or_congr_right ⟨And.left, fun hr => ⟨hr, ?_⟩⟩
      exact hnew r ((h.has r).mp hr).1
    refine ⟨h.sound.insert hins, fun r => ?_, fun name => ?_, ?_, hdeleted⟩
    · rw [hremains, ← h.has, and_iff_right hfull]
      exact hhas r
    · rw [lastRole_store, ← h.last]
      change (t.index .name)[[name]]? = _
      rw [Table.index_insert_of_new hins hfree]
      refine if_congr ?_ rfl rfl
      rw [rolesTable_nameKey, List.cons.injEq, and_iff_left rfl, and_iff_right hfull]
    · refine h.backs.insert fun r => (hhas r).trans (or_congr_right ⟨fun hr => ⟨hr, ?_⟩, And.left⟩)
      exact hnew r ((h.has r).mp hr).1
  · rw [storeRole_of_not_full hfull]
    refine ⟨h.sound, fun r => ?_, fun name => ?_, h.backs, hdeleted⟩
    · rw [hremains, h.has, or_iff_right fun hr => hfull hr.1]
    · rw [lastRole_store, if_neg fun he => hfull he.1, h.last]

theorem Recalls.delete (h : Recalls pb ops s) (hhas : s.roles.byId[role.id]? = some role) :
    Recalls pb (ops ++ [.delete role]) ((RoleOp.delete role).run pb s).2 := by
  have hhas : s.roles.Has rolesTable role := hhas
  have hdel := Table.delete_of_has hhas
  generalize ht : (⟨_, _⟩ : Table RoleIndex Role) = t at hdel
  rw [deleteRole_eq hdel]
  refine ⟨h.sound.delete hdel, fun r => ?_, fun name => ?_, ?_, fun r hr => ?_⟩
  · change t.Has rolesTable r ↔ _
    have hid : rolesTable.id r ≠ rolesTable.id role ∧ s.roles.Has rolesTable r
        ↔ r ≠ role ∧ s.roles.Has rolesTable r := by
      refine and_congr_left fun hr => not_congr ⟨fun hid => ?_, fun he => by rw [he]⟩
      have := h.sound.byId_iff.mpr ⟨hr, hid⟩
      exact (Option.some.inj (this.symm.trans hhas))
    rw [Table.has_delete hdel, and_comm, hid, h.has]
    unfold Remains
    simp only [List.mem_append, List.mem_singleton, RoleOp.delete.injEq, reduceCtorEq, or_false,
      not_or]
    tauto
  · rw [lastRole_delete, ← h.last]
    subst ht
    change ((s.roles.index .name).erase [role.name])[[name]]? = _
    rw [OrdMap.get_erase]
    refine if_congr ?_ rfl rfl
    rw [List.cons.injEq, and_iff_left rfl]
  · exact h.backs.erase fun r => Table.has_delete hdel
  · rcases List.mem_append.mp hr with hr | hr
    · exact List.mem_append_left _ (h.deleted r hr)
    · obtain rfl := RoleOp.delete.inj (List.mem_singleton.mp hr)
      exact List.mem_append_left _ ((h.has r).mp hhas).1

theorem Recalls.run : ∀ (ops past : List RoleOp) {s s' : FullStorage}, Recalls pb past s →
    ((past ++ ops).filterMap RoleOp.newId).Nodup → Along (RoleOp.step pb) RoleOp.Allowed ops s →
      runSteps (RoleOp.step pb) ops s = some s' → Recalls pb (past ++ ops) s'
  | [], past, s, s', h, _, _, hrun => by
    obtain rfl := Option.some.inj hrun
    rwa [List.append_nil]
  | op :: ops, past, s, s', h, hids, hallowed, hrun => by
    obtain ⟨hop, hallowed⟩ := hallowed
    have hnew := hids
    rw [List.filterMap_append] at hnew
    rw [List.append_cons] at hids ⊢
    refine run ops (past ++ [op]) ?_ hids hallowed hrun
    cases op with
    | store role =>
      refine h.store (fun r hr he => ?_) hop
      have hmem : r.id ∈ past.filterMap RoleOp.newId :=
        List.mem_filterMap.mpr ⟨.store r, hr, rfl⟩
      refine List.disjoint_of_nodup_append hnew hmem (List.mem_filterMap.mpr ?_)
      exact ⟨.store role, List.mem_cons_self, congrArg some he.symm⟩
    | delete role => exact h.delete hop

end History

section Restart

variable {pb : RoleCodecs} {ops : List RoleOp} {s : FullStorage} {role : Role} {name : Bytes}

/-- The role is the one with the greatest id of those that are left of its name. -/
structure Greatest (ops : List RoleOp) (role : Role) : Prop where
  remains : Remains ops role
  greatest : ∀ r, Remains ops r → r.name = role.name → (compare r.id role.id).isLE

theorem isLE_of_getLast? {roles : List Role}
    (h : roles.Pairwise fun a b => compare a.id b.id = .lt) (hlast : roles.getLast? = some role)
    {r : Role} (hr : r ∈ roles) : (compare r.id role.id).isLE := by
  obtain ⟨before, rfl⟩ := List.getLast?_eq_some_iff.mp hlast
  rcases List.mem_append.mp hr with hr | hr
  · rw [(List.pairwise_append.mp h).2.2 r hr role List.mem_cons_self]
    rfl
  · have heq : compare role.id role.id = .eq := Std.LawfulEqCmp.compare_eq_iff_eq.mpr rfl
    rw [List.mem_singleton.mp hr, heq]
    rfl

namespace Recalls

theorem of_getRole (h : Recalls pb ops s) (hrole : s.getRole name = some role) :
    Remains ops role ∧ role.name = name := by
  obtain ⟨hhas, hkey⟩ := h.sound.index hrole
  exact ⟨(h.has role).mp hhas, (List.cons.inj hkey).1⟩

theorem greatest_unique (h : Recalls pb ops s) {r : Role} (hr : Greatest ops r)
    (hrole : Remains ops role) (hname : role.name = r.name) (hle : (compare r.id role.id).isLE) :
    r = role := by
  have hid : r.id = role.id := Std.LawfulEqCmp.compare_eq_iff_eq.mp
    (Std.OrientedCmp.isLE_antisymm hle (hr.greatest role hrole hname))
  have hbyId := h.sound.byId_iff.mpr ⟨(h.has r).mpr hr.remains, hid⟩
  exact Option.some.inj (hbyId.symm.trans ((h.has role).mpr hrole))

/-- The entry of a name is for the last of its roles in the order of the ids. -/
theorem getRole_load (h : Recalls pb ops s) (name : Bytes) :
    ∃ roles : List Role, (s.loadFromBackend pb).getRole name = roles.getLast?
      ∧ (∀ r, r ∈ roles ↔ Remains ops r ∧ r.name = name)
      ∧ roles.Pairwise fun a b => compare a.id b.id = .lt := by
  let roles := s.roleBucket.vals.filterMap pb.role.unmarshal
  have hmem : ∀ {r}, r ∈ roles ↔ Remains ops r := h.backs.mem_objects.trans (h.has _)
  refine ⟨roles.filter fun r => rolesTable.key .name r = [name], ?_, fun r => ?_,
    h.backs.sorted_objects.filter _⟩
  · change ((Table.empty.load rolesTable roles).index .name)[[name]]? = _
    rw [Table.index_load .name [name] roles (fun r hr => (hmem.mp hr).2.1) h.backs.nodup_objects
      fun r _ => by simp [Table.empty]]
    simp [Table.empty]
  · rw [List.mem_filter, hmem, decide_eq_true_iff, rolesTable_nameKey, List.cons.injEq,
      and_iff_left rfl]

theorem greatest_of_load (h : Recalls pb ops s)
    (hrole : (s.loadFromBackend pb).getRole name = some role) :
    Greatest ops role ∧ role.name = name := by
  obtain ⟨roles, hlast, hmem, hsorted⟩ := h.getRole_load name
  rw [hlast] at hrole
  obtain ⟨hremains, hname⟩ := (hmem role).mp (List.mem_of_getLast? hrole)
  refine ⟨⟨hremains, fun r hr hname' => ?_⟩, hname⟩
  exact isLE_of_getLast? hsorted hrole ((hmem r).mpr ⟨hr, hname'.trans hname⟩)

theorem exists_load (h : Recalls pb ops s) (hrole : Remains ops role) :
    ∃ r, (s.loadFromBackend pb).getRole role.name = some r := by
  obtain ⟨roles, hlast, hmem, -⟩ := h.getRole_load role.name
  have hne : roles ≠ [] := List.ne_nil_of_mem ((hmem role).mpr ⟨hrole, rfl⟩)
  exact ⟨roles.getLast hne, hlast.trans (List.getLast?_eq_some_getLast hne)⟩

/-- After a restart the name finds the role with the greatest id. -/
theorem load_of_greatest (h : Recalls pb ops s) (hrole : Greatest ops role) :
    (s.loadFromBackend pb).getRole role.name = some role := by
  obtain ⟨r, hr⟩ := h.exists_load hrole.remains
  obtain ⟨hgreatest, hname⟩ := h.greatest_of_load hr
  rw [hr, h.greatest_unique hgreatest hrole.remains hname.symm
    (hrole.greatest r hgreatest.remains hname)]

end Recalls

/-- What the name of a role with the greatest id finds before a restart, and after it. -/
theorem exists_getRole (pb : RoleCodecs) (hids : (ops.filterMap RoleOp.newId).Nodup)
    (hallowed : Along (RoleOp.step pb) RoleOp.Allowed ops .empty) (hrole : Greatest ops role) :
    ∃ s, runSteps (RoleOp.step pb) ops .empty = some s
      ∧ s.getRole role.name = lastRole role.name ops
      ∧ (s.loadFromBackend pb).getRole role.name = some role := by
  obtain ⟨s, hrun⟩ := RoleOp.exists_run pb ops .empty
  have h : Recalls pb ops s := recalls_empty.run ops [] hids hallowed hrun
  exact ⟨s, hrun, h.last role.name, h.load_of_greatest hrole⟩

/-- Whatever roles are stored, with ids that do not come twice, and deleted: each name finds the
same role in a storage loaded from the backend if and only if, for every role that is left, the
last call on its name stored one with an id that is not less. -/
theorem getRole_restart_iff (pb : RoleCodecs) (ops : List RoleOp) {s : FullStorage}
    (hids : (ops.filterMap RoleOp.newId).Nodup)
    (hallowed : Along (RoleOp.step pb) RoleOp.Allowed ops .empty)
    (hrun : runSteps (RoleOp.step pb) ops .empty = some s) :
    (∀ name, (s.loadFromBackend pb).getRole name = s.getRole name)
      ↔ ∀ role, Remains ops role → ∃ r ∈ lastRole role.name ops, (compare role.id r.id).isLE := by
  have h : Recalls pb ops s := recalls_empty.run ops [] hids hallowed hrun
  constructor
  · intro hsame role hrole
    obtain ⟨r, hr⟩ := h.exists_load hrole
    obtain ⟨hgreatest, hname⟩ := h.greatest_of_load hr
    rw [hsame, h.last] at hr
    exact ⟨r, hr, hgreatest.greatest role hrole hname.symm⟩
  · intro hlast name
    rcases hload : (s.loadFromBackend pb).getRole name with _ | r
    · rcases hrole : s.getRole name with _ | role
      · rfl
      · obtain ⟨hremains, rfl⟩ := h.of_getRole hrole
        obtain ⟨r, hr⟩ := h.exists_load hremains
        cases hload.symm.trans hr
    · obtain ⟨hgreatest, rfl⟩ := h.greatest_of_load hload
      obtain ⟨role, hrole, hle⟩ := hlast r hgreatest.remains
      rw [Option.mem_def, ← h.last] at hrole
      obtain ⟨hremains, hname⟩ := h.of_getRole hrole
      rw [hrole, h.greatest_unique hgreatest hremains hname hle]

end Restart

section Witness

def someRole (id : UInt8) (name : Bytes) : Role := ⟨[id], name, [], []⟩

/-- Two roles of one name, the second with the greater id, and a third that comes and goes. -/
def inOrder : List RoleOp :=
  [.store (someRole 1 [97]), .store (someRole 3 [98]), .store (someRole 2 [97]),
    .delete (someRole 3 [98])]

theorem getRole_restart_iff_inOrder : ∃ s,
    runSteps (RoleOp.step someRoleCodecs) inOrder .empty = some s
      ∧ ∀ name, (s.loadFromBackend someRoleCodecs).getRole name = s.getRole name := by
  obtain ⟨s, hrun⟩ := RoleOp.exists_run someRoleCodecs inOrder .empty
  exact ⟨s, hrun, (getRole_restart_iff someRoleCodecs inOrder (by decide +kernel)
    (by decide +kernel) hrun).mpr (by decide +kernel)⟩

/-- The role with the lesser id is stored last. -/
def outOfOrder : List RoleOp := [.store (someRole 2 [97]), .store (someRole 1 [97])]

/-- Of two roles of a name one is deleted. -/
def lessOne : List RoleOp :=
  [.store (someRole 1 [97]), .store (someRole 2 [97]), .delete (someRole 2 [97])]

/-- Before the restart the one role is found, or none, and after it the other. -/
theorem getRole_differs : [(outOfOrder, some (someRole 1 [97]), someRole 2 [97]),
    (lessOne, none, someRole 1 [97])].Forall fun (ops, before, after) =>
      (ops.filterMap RoleOp.newId).Nodup
      ∧ Along (RoleOp.step someRoleCodecs) RoleOp.Allowed ops .empty
      ∧ ∃ s, runSteps (RoleOp.step someRoleCodecs) ops .empty = some s
        ∧ s.getRole [97] = before
        ∧ (s.loadFromBackend someRoleCodecs).getRole [97] = some after := by
  have h₁ : Greatest outOfOrder (someRole 2 [97]) := ⟨by decide +kernel, by decide +kernel⟩
  have h₂ : Greatest lessOne (someRole 1 [97]) := ⟨by decide +kernel, by decide +kernel⟩
  refine ⟨⟨by decide +kernel, by decide +kernel, ?_⟩, by decide +kernel, by decide +kernel, ?_⟩
  · exact exists_getRole someRoleCodecs (by decide +kernel) (by decide +kernel) h₁
  · exact exists_getRole someRoleCodecs (by decide +kernel) (by decide +kernel) h₂

end Witness

end Rhosus.Registry
