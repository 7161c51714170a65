import Rhosus.Lib.Base64
import Rhosus.Pb.Messages
import Rhosus.Registry.Watch

/-!
# Service discovery

Data nodes register themselves in etcd, and take themselves off when they are shut down. A registry
loads the nodes that are there when it starts, and follows the changes from then on: in each round
of `RunServiceDiscovery` it opens a watch, waits for it and for two other things, and handles what
comes first. A watch tells of what changes after it was opened, and the next round opens a new one.

Of etcd, this is what it guarantees of a watch without a revision: it brings every change after it
was created, in their order and none twice, in responses of one or more. To delete a key that is not
there is no change.

So the nodes map has what etcd has, but for changes that the registry is yet to handle, as long as
changes come while a watch is open, no watch is given up with events in it, and new nodes can be
reached (`nodesMap_follows_etcd`). A node that registers between two watches is not added as long as
the registry runs (`never_added`).
-/

namespace Rhosus.Registry.Discovery

open Watch (NodeInfo NodeState)

section Source

def serviceDiscoveryNodesPath : Bytes := Url.bytes "rhosus/service_discovery/nodes/"

/-- `TrimPrefix`, with the path of the nodes. -/
def parseNodeName (path : Bytes) : Bytes :=
  if serviceDiscoveryNodesPath.isPrefixOf path then path.drop serviceDiscoveryNodesPath.length
  else path

def stateCode : NodeState → ℤ
  | .normal => 0
  | .decommissionInProgress => 1
  | .decommissioned => 2

/-- No node registers in a state that has no name. -/
def stateOf : ℤ → NodeState
  | 1 => .decommissionInProgress
  | 2 => .decommissioned
  | _ => .normal

def toMessage (info : NodeInfo) : Pb.NodeInfo :=
  ⟨info.id, info.name, info.address, info.location, stateCode info.state⟩

def ofMessage (m : Pb.NodeInfo) : NodeInfo := ⟨m.id, m.name, m.address, m.location, stateOf m.state⟩

/-- What a value is read as, and whether `Unmarshal` returns no error. One of `Base64Decode` is only
logged. -/
def decodeInfo (value : Bytes) : NodeInfo × Bool :=
  let (m, ok) := Pb.nodeInfo.unmarshal Pb.nodeInfo.new (Base64.decode value).1
  (ofMessage m, ok)

inductive Event
  | put (key value : Bytes)
  | delete (key : Bytes)

structure State where
  map : Watch.State
  /-- Where each node in the map is called. -/
  conns : OrdMap Bytes Bytes
  etcd : OrdMap Bytes Bytes
  /-- The watch that the loop waits for, with the events that have come to it. -/
  stream : Option (List Event)
  /-- The events of a response, as far as they are still to be handled. -/
  events : List Event

/-- `getExistingNodes`; a value that cannot be read is left out. -/
def getExistingNodes (etcd : OrdMap Bytes Bytes) : OrdMap Bytes NodeInfo :=
  OrdMap.putAll ∅ ((etcd.toList.filter fun kv => (decodeInfo kv.2).2).map fun kv =>
    ((decodeInfo kv.2).1.id, (decodeInfo kv.2).1))

/-- `NewRegistry`, where some nodes are reached. -/
def State.start (etcd : OrdMap Bytes Bytes) (reached : Bytes → Bool) : State :=
  let infos := (getExistingNodes etcd).filter fun id _ => reached id
  ⟨.start infos, infos.map fun _ info => info.address, etcd, none, []⟩

inductive Step
  /-- A data node starts. -/
  | registerItself (id name address location : Bytes)
  | unregisterItself (id : Bytes)
  /-- `select` comes to its cases. -/
  | select
  /-- It takes another case than the watch of the nodes. -/
  | other
  /-- It gets a response with this many events. -/
  | receive (n : ℕ)
  /-- The next event is handled; a new node can be reached or not. -/
  | handle (reached : Bool)
  /-- A step of `WatchNodes`. -/
  | watch (l : Watch.Step)

def State.change (e : Event) (etcd : OrdMap Bytes Bytes) (s : State) : State :=
  { s with etcd, stream := s.stream.map (· ++ [e]) }

def State.addNode (info : NodeInfo) (reached : Bool) (s : State) : Option State :=
  (Watch.step (.addNode info.id info reached) s.map).map fun map =>
    { s with map, conns := if reached then s.conns.insert info.id info.address else s.conns }

def State.handle (reached : Bool) (s : State) : Event → Option State
  | .put _ value =>
    -- what was read before an error is used as well
    let info := (decodeInfo value).1
    if s.map.nodes.contains info.id then
      (Watch.step (.updateNodeInfo info.id info) s.map).map fun map => { s with map }
    else s.addNode info reached
  | .delete key =>
    let name := parseNodeName key
    if s.map.nodes.contains name then
      (Watch.step (.removeNode name) s.map).map fun map =>
        { s with map, conns := s.conns.erase name }
    else some s

def step : Step → State → Option State
  | .registerItself id name address location, s =>
    let info : NodeInfo := ⟨id, name, address, location, .normal⟩
    (Pb.nodeInfo.methods.marshal (toMessage info)).map fun bytes =>
      let key := serviceDiscoveryNodesPath ++ id
      s.change (.put key (Base64.encode bytes)) (s.etcd.insert key (Base64.encode bytes))
  | .unregisterItself id, s =>
    let key := serviceDiscoveryNodesPath ++ id
    -- there is no event where nothing is deleted
    if s.etcd.contains key then some (s.change (.delete key) (s.etcd.erase key)) else some s
  | .select, s =>
    if s.stream.isNone ∧ s.events.isEmpty then some { s with stream := some [] } else none
  | .other, s => if s.stream.isSome then some { s with stream := none } else none
  | .receive n, s =>
    match s.stream with
    | some es => if 0 < n ∧ n ≤ es.length then some { s with stream := none, events := es.take n }
      else none
    | none => none
  | .handle reached, s =>
    match s.events with
    | e :: es => { s with events := es }.handle reached e
    | [] => none
  | .watch l, s =>
    match l with
    | .tick | .heartbeat .. | .read _ | .mark _ | .count _ =>
      (Watch.step l s.map).map fun map => { s with map }
    | .addNode .. | .updateNodeInfo .. | .removeNode _ => none

end Source

section Values

theorem parseNodeName_path (id : Bytes) : parseNodeName (serviceDiscoveryNodesPath ++ id) = id := by
  have h : serviceDiscoveryNodesPath.isPrefixOf (serviceDiscoveryNodesPath ++ id) = true := by
    simp
  rw [parseNodeName, if_pos h, List.drop_left]

theorem ofMessage_toMessage (info : NodeInfo) : ofMessage (toMessage info) = info := by
  obtain ⟨id, name, address, location, state⟩ := info
  cases state <;> rfl

/-- The value is what a node has registered with under the key. -/
def Registered (key value : Bytes) : Prop :=
  ∃ info, key = serviceDiscoveryNodesPath ++ info.id ∧ decodeInfo value = (info, true)

theorem decodeInfo_encode {info : NodeInfo} {bytes : Bytes}
    (hfits : Pb.nodeInfo.fits (toMessage info))
    (h : Pb.nodeInfo.methods.marshal (toMessage info) = some bytes) :
    decodeInfo (Base64.encode bytes) = (info, true) := by
  have hread := (Proto.Message.lawful Pb.nodeInfo_sound).unmarshal hfits
  rw [Proto.Methods.bytes, h, Option.getD_some] at hread
  change Pb.nodeInfo.unmarshal Pb.nodeInfo.new bytes = (toMessage info, true) at hread
  simp only [decodeInfo, Base64.decode_encode, hread, ofMessage_toMessage]

end Values

section Infos

/-- What a map tells of a node. -/
def infos (map : Watch.State) (id : Bytes) : Option NodeInfo := map.nodes[id]?.map Watch.Node.info

/-- What etcd has of a node. -/
def contents (etcd : OrdMap Bytes Bytes) (id : Bytes) : Option NodeInfo :=
  etcd[serviceDiscoveryNodesPath ++ id]?.map fun value => (decodeInfo value).1

/-- What an event says has changed. -/
def Event.apply (m : Bytes → Option NodeInfo) : Event → Bytes → Option NodeInfo
  | .put _ value => Function.update m (decodeInfo value).1.id (some (decodeInfo value).1)
  | .delete key => Function.update m (parseNodeName key) none

/-- What a step of the nodes map does to its infos. -/
def effect (l : Watch.Step) (m : Bytes → Option NodeInfo) : Bytes → Option NodeInfo :=
  match l with
  | .addNode id info true => Function.update m id (some info)
  | .updateNodeInfo id info => Function.update m id ((m id).map fun _ => info)
  | .removeNode id => Function.update m id none
  | _ => m

theorem info_of_local {id : Bytes} {l : Watch.Step} {node node' : Option Watch.Node}
    {stage stage' : Option Watch.Stage} {m : Bytes → Option NodeInfo}
    (h : Watch.Local id l node stage node' stage') (hm : m id = node.map Watch.Node.info) :
    node'.map Watch.Node.info = effect l m id := by
  cases h with
  | other hl htick =>
    have hne : ∀ {i : Bytes}, l.about = some i → id ≠ i := fun hi heq => hl (heq ▸ hi)
    unfold effect
    split
    all_goals first
      | rw [Function.update_of_ne (hne rfl)]
        exact hm.symm
      | exact hm.symm
  | tick | fail | read | mark | count | unreached => exact hm.symm
  | @answer _ ref blocksUsed =>
    have hreceive : Watch.Node.info ∘ Watch.Node.receive ref blocksUsed = Watch.Node.info := by
      funext node
      simp only [Function.comp_apply, Watch.Node.receive]
      split_ifs <;> rfl
    rw [Option.map_map, hreceive]
    exact hm.symm
  | add | remove =>
    rw [effect, Function.update_self]
    rfl
  | update =>
    rw [effect, Function.update_self, hm, Option.map_map, Option.map_map]
    rfl

theorem infos_step {l : Watch.Step} {map map' : Watch.State} (h : Watch.step l map = some map') :
    infos map' = effect l (infos map) := by
  funext id
  obtain ⟨-, ⟨⟨i, hi, -⟩, rfl⟩ | ⟨-, hlocal⟩⟩ := Watch.step_cases h
  · cases l with
    | read | mark | count => rfl
    | _ => cases hi
  · exact info_of_local (hlocal id) rfl

theorem contents_insert {etcd : OrdMap Bytes Bytes} {value : Bytes} {info : NodeInfo}
    (h : decodeInfo value = (info, true)) :
    contents (etcd.insert (serviceDiscoveryNodesPath ++ info.id) value)
      = Function.update (contents etcd) info.id (some info) := by
  funext id
  rw [contents, OrdMap.get_insert]
  by_cases hid : id = info.id
  · rw [hid, if_pos rfl, Function.update_self, Option.map_some, h]
  · rw [Function.update_of_ne hid, if_neg fun heq => hid (List.append_cancel_left heq).symm]
    rfl

theorem contents_erase (etcd : OrdMap Bytes Bytes) (i : Bytes) :
    contents (etcd.erase (serviceDiscoveryNodesPath ++ i))
      = Function.update (contents etcd) i none := by
  funext id
  rw [contents, OrdMap.get_erase]
  by_cases hid : id = i
  · rw [hid, if_pos rfl, Function.update_self]
    rfl
  · rw [Function.update_of_ne hid, if_neg fun heq => hid (List.append_cancel_left heq).symm]
    rfl

/-- An event that is handled changes the map as it says, unless the node cannot be reached. -/
theorem infos_handle {s s' : State} {reached : Bool} {e : Event}
    (h : s.handle reached e = some s') :
    infos s'.map = e.apply (infos s.map) ∨ (reached = false ∧ infos s'.map = infos s.map) := by
  cases e with
  | put key value =>
    simp only [State.handle, State.addNode] at h
    split_ifs at h with hmem hreached
    · obtain ⟨map, hmap, rfl⟩ := Option.map_eq_some_iff.mp h
      obtain ⟨node, hnode⟩ := Option.isSome_iff_exists.mp
        ((Std.ExtTreeMap.isSome_getElem?_eq_contains).trans hmem)
      left
      rw [infos_step hmap, effect, Event.apply, infos, hnode]
      rfl
    · obtain ⟨map, hmap, rfl⟩ := Option.map_eq_some_iff.mp h
      rw [hreached] at hmap
      exact .inl (infos_step hmap)
    · obtain ⟨map, hmap, rfl⟩ := Option.map_eq_some_iff.mp h
      rw [Bool.not_eq_true] at hreached
      rw [hreached] at hmap
      exact .inr ⟨hreached, infos_step hmap⟩
  | delete key =>
    left
    simp only [State.handle] at h
    split_ifs at h with hmem
    · obtain ⟨map, hmap, rfl⟩ := Option.map_eq_some_iff.mp h
      exact infos_step hmap
    · obtain rfl := Option.some.inj h
      have hnone : infos s.map (parseNodeName key) = none := by
        rw [infos, Std.ExtTreeMap.getElem?_eq_none (by simpa using hmem)]
        rfl
      rw [Event.apply, ← hnone, Function.update_eq_self]

theorem handle_keeps {s s' : State} {reached : Bool} {e : Event}
    (h : s.handle reached e = some s') :
    s'.etcd = s.etcd ∧ s'.stream = s.stream ∧ s'.events = s.events := by
  cases e with
  | put key value =>
    simp only [State.handle, State.addNode] at h
    split_ifs at h
    all_goals
      obtain ⟨map, -, rfl⟩ := Option.map_eq_some_iff.mp h
      exact ⟨rfl, rfl, rfl⟩
  | delete key =>
    simp only [State.handle] at h
    split_ifs at h
    · obtain ⟨map, -, rfl⟩ := Option.map_eq_some_iff.mp h
      exact ⟨rfl, rfl, rfl⟩
    · obtain rfl := Option.some.inj h
      exact ⟨rfl, rfl, rfl⟩

theorem watch_eq {s s' : State} {l : Watch.Step} (h : step (.watch l) s = some s') :
    ∃ map, s' = { s with map } ∧ infos map = infos s.map := by
  unfold step at h
  cases l with
  | addNode | updateNodeInfo | removeNode => cases h
  | _ =>
    obtain ⟨map, hmap, rfl⟩ := Option.map_eq_some_iff.mp h
    exact ⟨map, rfl, infos_step hmap⟩

inductive Does (s : State) : Step → State → Prop
  | register {id name address location bytes : Bytes}
    (h : Pb.nodeInfo.methods.marshal (toMessage ⟨id, name, address, location, .normal⟩)
      = some bytes) :
    Does s (.registerItself id name address location)
      (s.change (.put (serviceDiscoveryNodesPath ++ id) (Base64.encode bytes))
        (s.etcd.insert (serviceDiscoveryNodesPath ++ id) (Base64.encode bytes)))
  | unregister (id : Bytes) :
    Does s (.unregisterItself id) (s.change (.delete (serviceDiscoveryNodesPath ++ id))
      (s.etcd.erase (serviceDiscoveryNodesPath ++ id)))
  | absent (id : Bytes) : Does s (.unregisterItself id) s
  | select (hstream : s.stream = none) (hevents : s.events = []) :
    Does s .select { s with stream := some [] }
  | other {es : List Event} (h : s.stream = some es) : Does s .other { s with stream := none }
  | receive {es : List Event} {n : ℕ} (h : s.stream = some es) :
    Does s (.receive n) { s with stream := none, events := es.take n }
  | handle {e : Event} {es : List Event} {reached : Bool} {s' : State}
    (hevents : s.events = e :: es)
    (h : { s with events := es }.handle reached e = some s') : Does s (.handle reached) s'
  | watch (l : Watch.Step) {map : Watch.State} (h : infos map = infos s.map) :
    Does s (.watch l) { s with map }

theorem step_cases {s s' : State} {l : Step} (h : step l s = some s') : Does s l s' := by
  cases l with
  | registerItself id name address location =>
    obtain ⟨bytes, hbytes, rfl⟩ := Option.map_eq_some_iff.mp h
    exact .register hbytes
  | unregisterItself id =>
    simp only [step] at h
    split_ifs at h <;> obtain rfl := Option.some.inj h
    · exact .unregister id
    · exact .absent id
  | select =>
    simp only [step] at h
    split_ifs at h with hidle
    obtain rfl := Option.some.inj h
    exact .select (Option.isNone_iff_eq_none.mp hidle.1) (List.isEmpty_iff.mp hidle.2)
  | other =>
    simp only [step] at h
    split_ifs at h with hopen
    obtain rfl := Option.some.inj h
    obtain ⟨es, hes⟩ := Option.isSome_iff_exists.mp hopen
    exact .other hes
  | receive n =>
    simp only [step] at h
    rcases hes : s.stream with _ | es <;> rw [hes] at h
    · cases h
    dsimp only at h
    split_ifs at h
    obtain rfl := Option.some.inj h
    exact .receive hes
  | handle reached =>
    simp only [step] at h
    rcases hes : s.events with _ | ⟨e, es⟩ <;> rw [hes] at h
    · cases h
    · exact .handle hes h
  | watch l =>
    obtain ⟨map, rfl, hmap⟩ := watch_eq h
    exact .watch l hmap

/-- In etcd each node has registered under its own key. -/
def Valid (etcd : OrdMap Bytes Bytes) : Prop :=
  ∀ key value, etcd[key]? = some value → Registered key value

theorem getExistingNodes_eq {etcd : OrdMap Bytes Bytes} (h : Valid etcd) (id : Bytes) :
    (getExistingNodes etcd)[id]? = contents etcd id := by
  set es := (etcd.toList.filter fun kv => (decodeInfo kv.2).2).map fun kv =>
    ((decodeInfo kv.2).1.id, (decodeInfo kv.2).1) with hes
  have hmem : ∀ {i : Bytes} {info : NodeInfo}, (i, info) ∈ es ↔ contents etcd i = some info := by
    intro i info
    simp only [hes, List.mem_map, List.mem_filter, Prod.mk.injEq, Prod.exists,
      Std.ExtTreeMap.mem_toList_iff_getElem?_eq_some]
    constructor
    · rintro ⟨key, value, ⟨hkey, -⟩, rfl, rfl⟩
      obtain ⟨info, rfl, hinfo⟩ := h key value hkey
      rw [contents, hinfo, hkey]
      simp [hinfo]
    · intro hi
      obtain ⟨value, hvalue, rfl⟩ := Option.map_eq_some_iff.mp hi
      obtain ⟨info, hkey, hinfo⟩ := h _ value hvalue
      refine ⟨_, value, ⟨hvalue, by rw [hinfo]⟩, ?_, rfl⟩
      rw [hinfo]
      exact (List.append_cancel_left hkey).symm
  rw [getExistingNodes, ← hes, OrdMap.get_putAll]
  rcases hid : contents etcd id with _ | info
  · rw [OrdMap.lastPut_eq_none.mpr]
    · simp
    · rintro hkey
      obtain ⟨⟨i, info⟩, hinfo, rfl⟩ := List.mem_map.mp hkey
      rw [hmem.mp hinfo] at hid
      cases hid
  · rw [OrdMap.lastPut_of_mem (hmem.mpr hid) fun info' hinfo' =>
      Option.some.inj ((hmem.mp hinfo').symm.trans hid)]
    rfl

end Infos

section Follows

variable {s s' : State}

/-- The events that are still to be handled. -/
def State.toCome (s : State) : List Event := s.events ++ s.stream.getD []

/-- A change comes while a watch is open; no watch is left with events in it; and a new node can be
reached. -/
def Step.InTime (l : Step) (s : State) : Prop :=
  match l with
  | .registerItself id name address location =>
    s.stream.isSome ∧ Pb.nodeInfo.fits (toMessage ⟨id, name, address, location, .normal⟩)
  | .unregisterItself _ => s.stream.isSome
  | .other => ∀ es ∈ s.stream, es.length = 0
  | .receive n => ∀ es ∈ s.stream, es.length = n
  | .handle reached => reached = true
  | .select | .watch _ => True

/-- The map becomes what etcd is when the events to come are handled. -/
structure Follows (s : State) : Prop where
  toCome : s.toCome.foldl Event.apply (infos s.map) = contents s.etcd
  waiting : s.stream.isSome → s.events = []

theorem Follows.change (h : Follows s) (hopen : s.stream.isSome) (e : Event)
    {etcd : OrdMap Bytes Bytes} (he : contents etcd = e.apply (contents s.etcd)) :
    Follows (s.change e etcd) := by
  obtain ⟨es, hes⟩ := Option.isSome_iff_exists.mp hopen
  refine ⟨?_, fun _ => h.waiting hopen⟩
  have hcome := h.toCome
  rw [State.toCome, hes, Option.getD_some] at hcome
  rw [State.toCome, State.change, hes, Option.map_some, Option.getD_some, ← List.append_assoc,
    List.foldl_append, hcome]
  exact he.symm

theorem Follows.step (h : Follows s) {l : Step} (hl : l.InTime s) (hs : step l s = some s') :
    Follows s' := by
  have hcome := h.toCome
  rw [State.toCome] at hcome
  cases step_cases hs with
  | register hbytes =>
    have hinfo := decodeInfo_encode hl.2 hbytes
    refine h.change hl.1 _ ((contents_insert hinfo).trans ?_)
    rw [Event.apply, hinfo]
  | unregister id =>
    refine h.change hl _ ((contents_erase _ _).trans ?_)
    rw [Event.apply, parseNodeName_path]
  | absent => exact h
  | select hstream hevents =>
    rw [hstream] at hcome
    exact ⟨hcome, fun _ => hevents⟩
  | other hes =>
    obtain rfl := List.eq_nil_of_length_eq_zero (hl _ hes)
    rw [hes] at hcome
    exact ⟨hcome, fun h => by cases h⟩
  | receive hes =>
    rw [h.waiting (by rw [hes]; rfl), hes] at hcome
    refine ⟨?_, fun h => by cases h⟩
    rw [State.toCome, ← hl _ hes, List.take_length, Option.getD_none, List.append_nil]
    exact hcome
  | handle hes hhandle =>
    obtain ⟨hetcd, hstream, hevents⟩ := handle_keeps hhandle
    refine ⟨?_, fun hopen => ?_⟩
    · rw [hes, List.cons_append, List.foldl_cons] at hcome
      rcases infos_handle hhandle with hinfos | ⟨hfalse, -⟩
      · rw [State.toCome, hetcd, hstream, hevents, hinfos]
        exact hcome
      · cases hfalse.symm.trans hl
    · rw [hstream] at hopen
      cases hes.symm.trans (h.waiting hopen)
  | watch _ hmap =>
    refine ⟨?_, h.waiting⟩
    rw [State.toCome, hmap]
    exact hcome

theorem follows_start {etcd : OrdMap Bytes Bytes} (hetcd : Valid etcd) {reached : Bytes → Bool}
    (hreached : ∀ id, contents etcd id ≠ none → reached id = true) :
    Follows (.start etcd reached) := by
  refine ⟨?_, fun h => by cases h⟩
  funext id
  have hget := getExistingNodes_eq hetcd id
  change infos (.start _) id = contents etcd id
  rw [infos, Watch.State.start, Std.ExtTreeMap.getElem?_map, Option.map_map,
    Std.ExtTreeMap.getElem?_filter', hget]
  rcases hid : contents etcd id with _ | info
  · rfl
  · rw [Option.filter_some, if_pos (hreached id (by rw [hid]; simp))]
    rfl

/-- As long as the nodes register while a watch is open, no watch is given up with events in it, and
each node can be reached when it is added, the map is what etcd is when the events to come are
handled; so with none to come it has the nodes that etcd has, as these have registered last. -/
theorem nodesMap_follows_etcd {etcd : OrdMap Bytes Bytes} (hetcd : Valid etcd)
    {reached : Bytes → Bool} (hreached : ∀ id, contents etcd id ≠ none → reached id = true)
    (ls : List Step) (hin : Along Discovery.step Step.InTime ls (.start etcd reached))
    (hrun : runSteps Discovery.step ls (.start etcd reached) = some s) :
    s.toCome.foldl Event.apply (infos s.map) = contents s.etcd
      ∧ (s.toCome = [] → ∀ id, infos s.map id = contents s.etcd id) := by
  have h : Follows s := Along.invariant (I := Follows) (fun _ _ _ h hl hs => h.step hl hs) ls
    (follows_start hetcd hreached) hin hrun
  refine ⟨h.toCome, fun hnone id => ?_⟩
  have hcome := h.toCome
  rw [hnone] at hcome
  exact congrFun hcome id

instance (s : State) : ∀ l : Step, Decidable (l.InTime s)
  | .registerItself .. => inferInstanceAs (Decidable (_ ∧ _))
  | .unregisterItself _ => inferInstanceAs (Decidable (_ = true))
  | .other | .receive _ => inferInstanceAs (Decidable (∀ es ∈ s.stream, _))
  | .handle _ => inferInstanceAs (Decidable (_ = true))
  | .select | .watch _ => isTrue trivial

/-- A node is added; it registers again with another address, and a second one comes; the first
unregisters. -/
def comings : List Step :=
  [.select, .registerItself [1] [97] [10] [], .receive 1, .handle true, .select,
    .registerItself [1] [97] [11] [], .registerItself [2] [98] [12] [], .receive 2, .handle true,
    .handle true, .watch .tick, .select, .unregisterItself [1], .receive 1, .handle true]

theorem nodesMap_follows_etcd_comings : ∃ s,
    runSteps Discovery.step comings (.start ∅ fun _ => true) = some s
      ∧ infos s.map [1] = none ∧ infos s.map [2] = some ⟨[2], [98], [12], [], .normal⟩ := by
  have hend : (runSteps Discovery.step comings (.start ∅ fun _ => true)).map
      (fun s => (s.toCome.length, contents s.etcd [1], contents s.etcd [2]))
        = some (0, none, some ⟨[2], [98], [12], [], .normal⟩) := by
    decide +kernel
  obtain ⟨s, hs, hcontents⟩ := Option.map_eq_some_iff.mp hend
  simp only [Prod.mk.injEq] at hcontents
  obtain ⟨hcome, hone, htwo⟩ := hcontents
  have hfollows := (nodesMap_follows_etcd (fun key value h => by simp at h) (fun _ _ => rfl) comings
    (by decide +kernel) hs).2 (List.eq_nil_of_length_eq_zero hcome)
  exact ⟨s, hs, (hfollows _).trans hone, (hfollows _).trans htwo⟩

end Follows

section Missed

variable {s s' : State} {l : Step} {e : Event} {id : Bytes}

/-- The node that an event is about. -/
def Event.about : Event → Bytes
  | .put _ value => (decodeInfo value).1.id
  | .delete key => parseNodeName key

theorem Event.apply_of_ne (h : e.about ≠ id) (m : Bytes → Option NodeInfo) :
    e.apply m id = m id := by
  cases e <;> exact Function.update_of_ne h.symm ..

/-- The event that a change of etcd is told by. -/
def Step.causes (e : Event) : Step → Prop
  | .registerItself id name address location =>
    ∃ bytes, Pb.nodeInfo.methods.marshal (toMessage ⟨id, name, address, location, .normal⟩)
        = some bytes
      ∧ e = .put (serviceDiscoveryNodesPath ++ id) (Base64.encode bytes)
  | .unregisterItself id => e = .delete (serviceDiscoveryNodesPath ++ id)
  | _ => False

theorem toCome_change {etcd : OrdMap Bytes Bytes} {e' : Event}
    (h : e' ∈ (s.change e etcd).toCome) : e' ∈ s.toCome ∨ e' = e := by
  simp only [State.toCome, State.change, List.mem_append] at h ⊢
  rcases hes : s.stream with _ | es <;> rw [hes] at h
  · exact .inl (h.imp_right fun h => by cases h)
  · simp only [Option.map_some, Option.getD_some, List.mem_append, List.mem_singleton] at h ⊢
    tauto

theorem toCome_step (h : step l s = some s') {e : Event} (he : e ∈ s'.toCome) :
    e ∈ s.toCome ∨ l.causes e := by
  cases step_cases h with
  | register hbytes => exact (toCome_change he).imp_right fun he => ⟨_, hbytes, he⟩
  | unregister => exact toCome_change he
  | absent | watch => exact .inl he
  | select | other => exact .inl (List.mem_append_left _ (by simpa [State.toCome] using he))
  | receive hes =>
    refine .inl (List.mem_append_right _ ?_)
    rw [hes]
    exact List.mem_of_mem_take (by simpa [State.toCome] using he)
  | handle hes hhandle =>
    obtain ⟨-, hstream, hevents⟩ := handle_keeps hhandle
    rw [State.toCome, hstream, hevents] at he
    rw [State.toCome, hes]
    exact .inl (List.mem_cons_of_mem _ he)

/-- The map changes when an event that was to come is handled. -/
theorem map_step (h : step l s = some s') :
    (∃ e ∈ s.toCome, ∃ es reached, { s with events := es }.handle reached e = some s')
      ∨ infos s'.map = infos s.map := by
  cases step_cases h with
  | @handle e es reached _ hes hhandle =>
    refine .inl ⟨e, ?_, es, reached, hhandle⟩
    rw [State.toCome, hes]
    exact List.mem_cons_self
  | watch _ hmap => exact .inr hmap
  | _ => exact .inr rfl

/-- A step that is not one of the node itself. -/
def Step.Foreign (id : Bytes) : Step → Prop
  | .registerItself i name address location =>
    i ≠ id ∧ Pb.nodeInfo.fits (toMessage ⟨i, name, address, location, .normal⟩)
  | .unregisterItself i => i ≠ id
  | _ => True

theorem Step.Foreign.about (h : l.Foreign id) (he : l.causes e) : e.about ≠ id := by
  cases l with
  | registerItself i name address location =>
    obtain ⟨bytes, hbytes, rfl⟩ := he
    rw [Event.about, decodeInfo_encode h.2 hbytes]
    exact h.1
  | unregisterItself i =>
    obtain rfl : e = _ := he
    rw [Event.about, parseNodeName_path]
    exact h
  | _ => exact he.elim

theorem Step.Foreign.contents_eq (h : l.Foreign id) (hs : step l s = some s') :
    contents s'.etcd id = contents s.etcd id := by
  have hne : ∀ {i : Bytes}, i ≠ id →
      serviceDiscoveryNodesPath ++ i ≠ serviceDiscoveryNodesPath ++ id :=
    fun hi heq => hi (List.append_cancel_left heq)
  cases step_cases hs with
  | register => exact congrArg _ (OrdMap.get_insert_of_ne (hne h.1) _)
  | unregister => exact congrArg _ (OrdMap.get_erase_of_ne (hne h))
  | handle _ hhandle => rw [(handle_keeps hhandle).1]
  | _ => rfl

/-- A node registers when no watch is open, and the registry neither has it nor is to be told of
it. Whatever the registry does from then on, and the other nodes, it never has it, while etcd does;
the next events about the node are those of its own next change. A restart of the registry, which
loads the nodes again, is not among the steps. -/
theorem never_added {name address location : Bytes} {s₁ s₂ : State} (hclosed : s.stream = none)
    (hnew : infos s.map id = none) (hevents : ∀ e ∈ s.events, e.about ≠ id)
    (hfits : Pb.nodeInfo.fits (toMessage ⟨id, name, address, location, .normal⟩))
    (hs : step (.registerItself id name address location) s = some s₁) (ls : List Step)
    (hls : ∀ l ∈ ls, l.Foreign id) (hrun : runSteps step ls s₁ = some s₂) :
    infos s₂.map id = none ∧ contents s₂.etcd id = some ⟨id, name, address, location, .normal⟩ := by
  let Missed (s : State) : Prop := infos s.map id = none ∧ (∀ e ∈ s.toCome, e.about ≠ id)
    ∧ contents s.etcd id = some ⟨id, name, address, location, .normal⟩
  suffices h : Missed s₂ from ⟨h.1, h.2.2⟩
  refine Along.invariant (I := Missed) (P := fun l _ => l.Foreign id) ?_ ls ?_
    (Along.of_forall fun l hl _ => hls l hl) hrun
  · rintro l s s' ⟨hmap, hcome, hcontents⟩ hl hs
    refine ⟨?_, fun e he => ?_, (hl.contents_eq hs).trans hcontents⟩
    · rcases map_step hs with ⟨e, he, es, reached, hhandle⟩ | hmap'
      · rcases infos_handle hhandle with hinfos | ⟨-, hinfos⟩
        · rw [hinfos, Event.apply_of_ne (hcome e he)]
          exact hmap
        · rw [hinfos]
          exact hmap
      · rw [hmap']
        exact hmap
    · exact (toCome_step hs he).elim (hcome e) hl.about
  · cases step_cases hs with
    | register hbytes =>
      have hinfo := decodeInfo_encode hfits hbytes
      refine ⟨hnew, fun e he => hevents e ?_, ?_⟩
      · simpa [State.toCome, State.change, hclosed] using he
      · exact (congrFun (contents_insert hinfo) id).trans (Function.update_self ..)

/-- What comes after the first node has registered: the second one is added. -/
def second : List Step :=
  [.select, .registerItself [2] [98] [11] [], .receive 1, .handle true, .select]

theorem never_added_second : ∃ s₁ s₂,
    step (.registerItself [1] [97] [10] []) (.start ∅ fun _ => true) = some s₁
      ∧ runSteps step second s₁ = some s₂ ∧ infos s₂.map [1] = none ∧ (infos s₂.map [2]).isSome
      ∧ contents s₂.etcd [1] = some ⟨[1], [97], [10], [], .normal⟩ := by
  have hend : (step (.registerItself [1] [97] [10] []) (.start ∅ fun _ => true)).map (fun s₁ =>
      (runSteps step second s₁).map fun s₂ => (infos s₂.map [2]).isSome) = some (some true) := by
    decide +kernel
  obtain ⟨s₁, hs₁, hthen⟩ := Option.map_eq_some_iff.mp hend
  obtain ⟨s₂, hs₂, htwo⟩ := Option.map_eq_some_iff.mp hthen
  have hfits : Pb.nodeInfo.fits (toMessage ⟨[2], [98], [11], [], .normal⟩) = true := by
    decide +kernel
  obtain ⟨hone, hcontents⟩ := never_added rfl (by decide +kernel) (by simp [State.start])
    (by decide +kernel) hs₁ second (by simp [second, Step.Foreign, hfits]) hs₂
  exact ⟨s₁, s₂, hs₁, hs₂, hone, htwo, hcontents⟩

end Missed

end Rhosus.Registry.Discovery
