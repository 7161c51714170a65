import Rhosus.Cluster.Entry
import Rhosus.Data.Partition
import Rhosus.Lib.Unknown
import Rhosus.Registry.Mutators

/-!
# The messages

The messages that registries and data nodes send each other, keep in their logs and in their
backends, and register themselves with, by the fields that the generated code has for them.
Enumerations are open on the wire and are numbers here.

Every message is written to exactly as many bytes as its `Size` says and read back from them
(`messages_round_trip`). Its fields are read also where others, which it does not have, stand
between them (`messages_read_amid`).
-/

namespace Rhosus.Pb

open Proto

section Scalars

/-- `int32` and `int64` -/
def int (w : ℕ) (hw : w = 32 ∨ w = 64) : Scalar ℤ where
  width := w
  toWire := Cluster.Entry.toUint64
  ofWire v := Int.bmod v (2 ^ w)
  fits v := -2 ^ (w - 1) ≤ v ∧ v < 2 ^ (w - 1)
  toWire_lt _ := Cluster.Entry.toUint64_lt _
  ofWire_toWire h :=
    Cluster.Entry.bmod_toUint64 hw (of_decide_eq_true h).1 (of_decide_eq_true h).2

def int64 : Scalar ℤ := int 64 (.inr rfl)

def int32 : Scalar ℤ := int 32 (.inl rfl)

end Scalars

section Files

structure FileInfo where
  id : Bytes
  parentID : Bytes
  type : ℤ
  name : Bytes
  path : Bytes
  fileSize : ℕ
  permission : ℕ
  owner : Bytes
  group : Bytes
  symlink : Bytes
  replication : ℤ

def fileInfo : Message FileInfo where
  new := ⟨[], [], 0, [], [], 0, 0, [], [], [], 0⟩
  fields := [
    .bytes 1 (.mk (·.id) fun v m => { m with id := v }),
    .bytes 2 (.mk (·.parentID) fun v m => { m with parentID := v }),
    .scalar 3 int32 (.mk (·.type) fun v m => { m with type := v }),
    .bytes 4 (.mk (·.name) fun v m => { m with name := v }),
    .bytes 5 (.mk (·.path) fun v m => { m with path := v }),
    .scalar 6 .uint64 (.mk (·.fileSize) fun v m => { m with fileSize := v }),
    .scalar 7 .uint32 (.mk (·.permission) fun v m => { m with permission := v }),
    .bytes 8 (.mk (·.owner) fun v m => { m with owner := v }),
    .bytes 9 (.mk (·.group) fun v m => { m with group := v }),
    .bytes 10 (.mk (·.symlink) fun v m => { m with symlink := v }),
    .scalar 11 int32 (.mk (·.replication) fun v m => { m with replication := v })]

/-- `BlockInfo_Placement` -/
def placement : Message Registry.Placement where
  new := ⟨[], []⟩
  fields := [
    .bytes 1 (.mk (·.nodeID) fun v m => { m with nodeID := v }),
    .bytes 2 (.mk (·.partitionID) fun v m => { m with partitionID := v })]

def blockInfo : Message Registry.BlockInfo where
  new := ⟨[], 0, 0, [], []⟩
  fields := [
    .bytes 1 (.mk (·.id) fun v m => { m with id := v }),
    .scalar 2 .uint64 (.mk (·.index) fun v m => { m with index := v }),
    .scalar 3 int64 (.mk (·.size) fun v m => { m with size := v }),
    .bytes 4 (.mk (·.fileID) fun v m => { m with fileID := v }),
    .messages 5 placement.methods (.mk (·.blocks) fun v m => { m with blocks := v })]

/-- `fs_pb.Block` -/
structure Block where
  id : Bytes
  index : ℕ
  fileId : Bytes
  offset : ℕ
  len : ℕ
  data : Bytes
  checksum : Bytes

def block : Message Block where
  new := ⟨[], 0, [], 0, 0, [], []⟩
  fields := [
    .bytes 1 (.mk (·.id) fun v m => { m with id := v }),
    .scalar 2 .uint64 (.mk (·.index) fun v m => { m with index := v }),
    .bytes 3 (.mk (·.fileId) fun v m => { m with fileId := v }),
    .scalar 4 .uint64 (.mk (·.offset) fun v m => { m with offset := v }),
    .scalar 5 .uint64 (.mk (·.len) fun v m => { m with len := v }),
    .bytes 6 (.mk (·.data) fun v m => { m with data := v }),
    .bytes 7 (.mk (·.checksum) fun v m => { m with checksum := v })]

/-- `transport_pb.BlockPlacementInfo` -/
structure BlockPlacementInfo where
  blockID : Bytes
  partitionID : Bytes
  success : Bool
  error : Bytes

def blockPlacementInfo : Message BlockPlacementInfo where
  new := ⟨[], [], false, []⟩
  fields := [
    .bytes 1 (.mk (·.blockID) fun v m => { m with blockID := v }),
    .bytes 2 (.mk (·.partitionID) fun v m => { m with partitionID := v }),
    .bool 3 (.mk (·.success) fun v m => { m with success := v }),
    .bytes 4 (.mk (·.error) fun v m => { m with error := v })]

end Files

section Auth

def role : Message Registry.Role where
  new := ⟨[], [], [], []⟩
  fields := [
    .bytes 1 (.mk (·.id) fun v m => { m with id := v }),
    .bytes 2 (.mk (·.name) fun v m => { m with name := v }),
    .strings 3 (.mk (·.permissions) fun v m => { m with permissions := v }),
    .bytes 4 (.mk (·.password) fun v m => { m with password := v })]

def token : Message Registry.Token where
  new := ⟨[], [], [], [], 0, 0, [], [], false⟩
  fields := [
    .bytes 1 (.mk (·.id) fun v m => { m with id := v }),
    .bytes 2 (.mk (·.authEngine) fun v m => { m with authEngine := v }),
    .bytes 3 (.mk (·.parent) fun v m => { m with parent := v }),
    .bytes 4 (.mk (·.accessor) fun v m => { m with accessor := v }),
    .scalar 5 int64 (.mk (·.ttl) fun v m => { m with ttl := v }),
    .scalar 6 int64 (.mk (·.creationTime) fun v m => { m with creationTime := v }),
    .strings 7 (.mk (·.policies) fun v m => { m with policies := v }),
    .bytes 8 (.mk (·.role) fun v m => { m with role := v }),
    .bool 9 (.mk (·.root) fun v m => { m with root := v })]

/-- `Policy_PathRules` -/
def pathRules : Message Registry.PathRules where
  new := ⟨[], [], 0, []⟩
  fields := [
    .bytes 1 (.mk (·.path) fun v m => { m with path := v }),
    .bytes 2 (.mk (·.policy) fun v m => { m with policy := v }),
    .scalar 3 .uint32 (.mk (·.capabilitiesBitmap) fun v m => { m with capabilitiesBitmap := v }),
    .strings 4 (.mk (·.capabilities) fun v m => { m with capabilities := v })]

def policy : Message Registry.Policy where
  new := ⟨[], [], []⟩
  fields := [
    .bytes 1 (.mk (·.id) fun v m => { m with id := v }),
    .bytes 2 (.mk (·.name) fun v m => { m with name := v }),
    .messages 3 pathRules.methods (.mk (·.paths) fun v m => { m with paths := v })]

end Auth

section Discovery

structure RegistryInfo where
  id : Bytes
  name : Bytes
  address : Bytes
  deriving DecidableEq

def registryInfo : Message RegistryInfo where
  new := ⟨[], [], []⟩
  fields := [
    .bytes 1 (.mk (·.id) fun v m => { m with id := v }),
    .bytes 2 (.mk (·.name) fun v m => { m with name := v }),
    .bytes 3 (.mk (·.address) fun v m => { m with address := v })]

/-- `transport_pb.NodeInfo` -/
structure NodeInfo where
  id : Bytes
  name : Bytes
  address : Bytes
  location : Bytes
  state : ℤ
  deriving DecidableEq

def nodeInfo : Message NodeInfo where
  new := ⟨[], [], [], [], 0⟩
  fields := [
    .bytes 1 (.mk (·.id) fun v m => { m with id := v }),
    .bytes 2 (.mk (·.name) fun v m => { m with name := v }),
    .bytes 3 (.mk (·.address) fun v m => { m with address := v }),
    .bytes 4 (.mk (·.location) fun v m => { m with location := v }),
    .scalar 5 int32 (.mk (·.state) fun v m => { m with state := v })]

end Discovery

section Log

/-- The version is a `float32`, which nothing sets. -/
structure Entry extends Cluster.Entry where
  version : ℕ

def entry : Message Entry where
  new := ⟨⟨0, 0, 0, [], 0⟩, 0⟩
  fields := [
    .scalar 1 .uint64 (.mk (·.index) fun v m => { m with index := v }),
    .scalar 2 .uint32 (.mk (·.term) fun v m => { m with term := v }),
    .scalar 3 int32 (.mk (·.type) fun v m => { m with type := v }),
    .bytes 4 (.mk (·.data) fun v m => { m with data := v }),
    .scalar 5 int64 (.mk (·.timestamp) fun v m => { m with timestamp := v }),
    .float 99 (.mk (·.version) fun v m => { m with version := v })]

/-- What the data of an entry says, of one thing, with the id of the node that wrote it. -/
structure Saying (T : Type) where
  nodeId : Bytes
  said : T

/-- The entries that have a message in them. -/
def saying {S : Type} (sub : Methods S) : Message (Saying (Option S)) where
  new := ⟨[], none⟩
  fields := [
    .bytes 1 (.mk (·.nodeId) fun v m => { m with nodeId := v }),
    .message 2 sub (.mk (·.said) fun v m => { m with said := v })]

def entryAssignFile : Message (Saying (Option FileInfo)) := saying fileInfo.methods

def entryDeleteFile : Message (Saying (Option FileInfo)) := saying fileInfo.methods

def entryCreatePolicy : Message (Saying (Option Registry.Policy)) := saying policy.methods

def entryCreateToken : Message (Saying (Option Registry.Token)) := saying token.methods

/-- The entries that have a name in them. -/
def naming : Message (Saying Bytes) where
  new := ⟨[], []⟩
  fields := [
    .bytes 1 (.mk (·.nodeId) fun v m => { m with nodeId := v }),
    .bytes 2 (.mk (·.said) fun v m => { m with said := v })]

def entryDeletePolicy : Message (Saying Bytes) := naming

def entryRevokeToken : Message (Saying Bytes) := naming

structure EntryAssignBlocks where
  nodeId : Bytes
  blocks : List Registry.BlockInfo
  rack : Bytes

def entryAssignBlocks : Message EntryAssignBlocks where
  new := ⟨[], [], []⟩
  fields := [
    .bytes 1 (.mk (·.nodeId) fun v m => { m with nodeId := v }),
    .messages 2 blockInfo.methods (.mk (·.blocks) fun v m => { m with blocks := v }),
    .bytes 3 (.mk (·.rack) fun v m => { m with rack := v })]

def entryDeleteBlocks : Message (Saying (List Registry.BlockInfo)) where
  new := ⟨[], []⟩
  fields := [
    .bytes 1 (.mk (·.nodeId) fun v m => { m with nodeId := v }),
    .messages 2 blockInfo.methods (.mk (·.said) fun v m => { m with said := v })]

end Log

section Control

structure RequestVoteRequest where
  term : ℕ
  candidateId : Bytes
  lastLogIndex : ℕ
  lastLogTerm : ℕ

def requestVoteRequest : Message RequestVoteRequest where
  new := ⟨0, [], 0, 0⟩
  fields := [
    .scalar 1 .uint32 (.mk (·.term) fun v m => { m with term := v }),
    .bytes 2 (.mk (·.candidateId) fun v m => { m with candidateId := v }),
    .scalar 3 .uint64 (.mk (·.lastLogIndex) fun v m => { m with lastLogIndex := v }),
    .scalar 4 .uint32 (.mk (·.lastLogTerm) fun v m => { m with lastLogTerm := v })]

/-- `sender` is `from`. -/
structure RequestVoteResponse where
  sender : Bytes
  term : ℕ
  voteGranted : Bool

def requestVoteResponse : Message RequestVoteResponse where
  new := ⟨[], 0, false⟩
  fields := [
    .bytes 1 (.mk (·.sender) fun v m => { m with sender := v }),
    .scalar 2 .uint32 (.mk (·.term) fun v m => { m with term := v }),
    .bool 3 (.mk (·.voteGranted) fun v m => { m with voteGranted := v })]

structure AppendEntriesRequest where
  term : ℕ
  leaderId : Bytes
  prevLogIndex : ℤ
  prevLogTerm : ℕ
  entries : List Entry
  leaderCommit : Bool

def appendEntriesRequest : Message AppendEntriesRequest where
  new := ⟨0, [], 0, 0, [], false⟩
  fields := [
    .scalar 1 .uint32 (.mk (·.term) fun v m => { m with term := v }),
    .bytes 2 (.mk (·.leaderId) fun v m => { m with leaderId := v }),
    .scalar 3 int64 (.mk (·.prevLogIndex) fun v m => { m with prevLogIndex := v }),
    .scalar 4 .uint32 (.mk (·.prevLogTerm) fun v m => { m with prevLogTerm := v }),
    .messages 6 entry.methods (.mk (·.entries) fun v m => { m with entries := v }),
    .bool 7 (.mk (·.leaderCommit) fun v m => { m with leaderCommit := v })]

structure AppendEntriesResponse where
  sender : Bytes
  term : ℕ
  success : Bool
  lastAgreedIndex : ℕ
  lastCommittedIndex : ℕ

def appendEntriesResponse : Message AppendEntriesResponse where
  new := ⟨[], 0, false, 0, 0⟩
  fields := [
    .bytes 1 (.mk (·.sender) fun v m => { m with sender := v }),
    .scalar 2 .uint32 (.mk (·.term) fun v m => { m with term := v }),
    .bool 3 (.mk (·.success) fun v m => { m with success := v }),
    .scalar 4 .uint64 (.mk (·.lastAgreedIndex) fun v m => { m with lastAgreedIndex := v }),
    .scalar 5 .uint64 (.mk (·.lastCommittedIndex) fun v m => { m with lastCommittedIndex := v })]

end Control

section Sound

theorem uint32_zero : Scalar.uint32.ofWire 0 = 0 := rfl

theorem uint64_zero : Scalar.uint64.ofWire 0 = 0 := rfl

theorem int32_zero : int32.ofWire 0 = 0 := rfl

theorem int64_zero : int64.ofWire 0 = 0 := rfl

attribute [local simp] uint32_zero uint64_zero int32_zero int64_zero Message.Covers Field.Unset
  Field.copy Field.Lawful

theorem fileInfo_sound : fileInfo.Sound :=
  ⟨by decide, by decide, by simp [fileInfo], by simp [fileInfo]⟩

theorem placement_sound : placement.Sound :=
  ⟨by decide, by decide, by simp [placement], by simp [placement]⟩

theorem block_sound : block.Sound :=
  ⟨by decide, by decide, by simp [block], by simp [block]⟩

theorem blockPlacementInfo_sound : blockPlacementInfo.Sound :=
  ⟨by decide, by decide, by simp [blockPlacementInfo], by simp [blockPlacementInfo]⟩

theorem role_sound : role.Sound :=
  ⟨by decide, by decide, by simp [role], by simp [role]⟩

theorem token_sound : token.Sound :=
  ⟨by decide, by decide, by simp [token], by simp [token]⟩

theorem pathRules_sound : pathRules.Sound :=
  ⟨by decide, by decide, by simp [pathRules], by simp [pathRules]⟩

theorem registryInfo_sound : registryInfo.Sound :=
  ⟨by decide, by decide, by simp [registryInfo], by simp [registryInfo]⟩

theorem nodeInfo_sound : nodeInfo.Sound :=
  ⟨by decide, by decide, by simp [nodeInfo], by simp [nodeInfo]⟩

theorem entry_sound : entry.Sound :=
  ⟨by decide, by decide, by simp [entry], by simp [entry]⟩

theorem naming_sound : naming.Sound :=
  ⟨by decide, by decide, by simp [naming], by simp [naming]⟩

theorem requestVoteRequest_sound : requestVoteRequest.Sound :=
  ⟨by decide, by decide, by simp [requestVoteRequest], by simp [requestVoteRequest]⟩

theorem requestVoteResponse_sound : requestVoteResponse.Sound :=
  ⟨by decide, by decide, by simp [requestVoteResponse], by simp [requestVoteResponse]⟩

theorem appendEntriesResponse_sound : appendEntriesResponse.Sound :=
  ⟨by decide, by decide, by simp [appendEntriesResponse], by simp [appendEntriesResponse]⟩

theorem blockInfo_sound : blockInfo.Sound :=
  ⟨by decide, by decide, by simp [blockInfo, Message.lawful placement_sound],
    by simp [blockInfo]⟩

theorem policy_sound : policy.Sound :=
  ⟨by decide, by decide, by simp [policy, Message.lawful pathRules_sound],
    by simp [policy]⟩

theorem entryAssignBlocks_sound : entryAssignBlocks.Sound :=
  ⟨by decide, by decide, by simp [entryAssignBlocks, Message.lawful blockInfo_sound],
    by simp [entryAssignBlocks]⟩

theorem entryDeleteBlocks_sound : entryDeleteBlocks.Sound :=
  ⟨by decide, by decide, by simp [entryDeleteBlocks, Message.lawful blockInfo_sound],
    by simp [entryDeleteBlocks]⟩

theorem appendEntriesRequest_sound : appendEntriesRequest.Sound :=
  ⟨by decide, by decide, by simp [appendEntriesRequest, Message.lawful entry_sound],
    by simp [appendEntriesRequest]⟩

theorem saying_sound {S : Type} {sub : Methods S} (h : sub.Lawful) : (saying sub).Sound :=
  ⟨by simp [saying, Field.num], by simp [saying, Field.num, Field.below], by simp [saying, h],
    by simp [saying]⟩

end Sound

/-- The bytes of an entry are those that the log of the cluster keeps. -/
theorem entry_encode (e : Cluster.Entry) : entry.encode ⟨e, 0⟩ = e.marshal := by
  have hvarint : ∀ {T : Type} (num : ℕ) (s : Scalar T) (l : Lens Entry T),
      ((Field.pieces ⟨e, 0⟩ (.scalar num s l)).map Piece.bytes).flatten
        = varintField num (s.toWire (l.get ⟨e, 0⟩)) := by
    intro T num s l
    simp only [Field.pieces, varintField]
    split_ifs <;> simp
  have hbytes : ∀ (num : ℕ) (l : Lens Entry Bytes),
      ((Field.pieces ⟨e, 0⟩ (.bytes num l)).map Piece.bytes).flatten
        = bytesField num (l.get ⟨e, 0⟩) := by
    intro num l
    simp only [Field.pieces, bytesField, delimited]
    split_ifs <;> simp
  have hversion : ∀ (num : ℕ) (l : Lens Entry ℕ), l.get ⟨e, 0⟩ = 0 →
      Field.pieces ⟨e, 0⟩ (.float num l) = [] := by
    intro num l h0
    simp [Field.pieces, h0]
  simp only [Message.encode, Message.pieces, entry, List.flatMap_cons, List.flatMap_nil,
    List.append_nil, List.map_append, List.flatten_append, hvarint, hbytes, hversion]
  rfl

def messages : List (Σ M : Type, Message M) :=
  [⟨_, fileInfo⟩, ⟨_, placement⟩, ⟨_, blockInfo⟩, ⟨_, block⟩, ⟨_, blockPlacementInfo⟩, ⟨_, role⟩,
    ⟨_, token⟩, ⟨_, pathRules⟩, ⟨_, policy⟩, ⟨_, registryInfo⟩, ⟨_, nodeInfo⟩, ⟨_, entry⟩,
    ⟨_, entryAssignFile⟩, ⟨_, entryDeleteFile⟩, ⟨_, entryAssignBlocks⟩, ⟨_, entryDeleteBlocks⟩,
    ⟨_, entryCreatePolicy⟩, ⟨_, entryDeletePolicy⟩, ⟨_, entryCreateToken⟩, ⟨_, entryRevokeToken⟩,
    ⟨_, requestVoteRequest⟩, ⟨_, requestVoteResponse⟩, ⟨_, appendEntriesRequest⟩,
    ⟨_, appendEntriesResponse⟩]

theorem messages_sound : ∀ x ∈ messages, x.2.Sound := by
  have hfile := saying_sound (Message.lawful fileInfo_sound)
  have hpolicy := saying_sound (Message.lawful policy_sound)
  have htoken := saying_sound (Message.lawful token_sound)
  simp only [messages, List.forall_mem_cons, List.not_mem_nil, false_imp_iff, implies_true,
    and_true]
  exact ⟨fileInfo_sound, placement_sound, blockInfo_sound, block_sound, blockPlacementInfo_sound,
    role_sound, token_sound, pathRules_sound, policy_sound, registryInfo_sound, nodeInfo_sound,
    entry_sound, hfile, hfile, entryAssignBlocks_sound, entryDeleteBlocks_sound, hpolicy,
    naming_sound, htoken, naming_sound, requestVoteRequest_sound, requestVoteResponse_sound,
    appendEntriesRequest_sound, appendEntriesResponse_sound⟩

/-- A message is written from the end of a buffer that its size is enough for, nowhere outside it,
and is read back from the bytes. -/
theorem messages_round_trip : ∀ x ∈ messages, ∀ m : x.1, x.2.fits m →
    ∃ bs, x.2.methods.marshal m = some bs ∧ bs.length = x.2.size m
      ∧ x.2.unmarshal x.2.new bs = (m, true) := by
  intro x hx m hm
  have hlaw := Message.lawful (messages_sound x hx)
  have hbytes := Message.marshal_eq (messages_sound x hx) hm
  have hlen := hlaw.length hm
  have hread := hlaw.unmarshal hm
  rw [Methods.bytes, hbytes] at hlen hread
  exact ⟨_, hbytes, hlen, hread⟩

/-- Two blocks, one of them with two placements and a size below zero. -/
def someBlocks : EntryAssignBlocks :=
  ⟨[110], [⟨[98], 300, -1, [102], [⟨[110], [112]⟩, ⟨[], []⟩]⟩, ⟨[99], 0, 0, [], []⟩], []⟩

theorem messages_round_trip_someBlocks :
    ∃ bs, entryAssignBlocks.methods.marshal someBlocks = some bs ∧ bs.length = 40
      ∧ entryAssignBlocks.unmarshal entryAssignBlocks.new bs = (someBlocks, true) := by
  obtain ⟨bs, hbs, hlen, hread⟩ :=
    messages_round_trip ⟨_, entryAssignBlocks⟩ (by simp [messages]) someBlocks (by decide)
  exact ⟨bs, hbs, hlen.trans (by decide), hread⟩

/-- Fields that a message does not have, of any kind and with groups in groups, may stand before,
between and after its own, which are read as if the others were not there. -/
theorem messages_read_amid : ∀ x ∈ messages, ∀ m : x.1, x.2.fits m → ∀ bs,
    Message.Amid x.2 ((x.2.pieces m).map Piece.bytes) bs →
    x.2.unmarshal x.2.new bs = (m, true) :=
  fun x hx _ hm _ hbs => Message.unmarshal_amid (messages_sound x hx) hm hbs

/-- A group with a group in it before the id, and a number after it. -/
theorem messages_read_amid_group :
    registryInfo.unmarshal registryInfo.new
        ([163, 1, 8, 5, 11, 12, 164, 1] ++ ([10, 1, 97] ++ ([32, 7] ++ ([26, 1, 98] ++ []))))
      = (⟨[97], [], [98]⟩, true) := by
  refine messages_read_amid ⟨_, registryInfo⟩ (by simp [messages]) ⟨[97], [], [98]⟩ (by decide) _
    (.item (.group 20 [.varint 1 5, .group 1 []]) ?_ (by decide)
      (.piece _ (.item (.varint 4 7) ?_ (by decide) (.piece _ .nil))))
  · simp [Item.Fits, Item.AllFit]
  · simp [Item.Fits]

end Rhosus.Pb
