import Rhosus.Pb.Messages
import Rhosus.Registry.Handlers

/-!
# The messages of the storage and of the log

What is known of the storage of a registry and of its log is for any messages that are read back as
they were written, and for all values. The generated code does so for the messages whose numbers
are of their types. It is a part of messages that do so for all (`wire_agrees`): the others have
bytes that begin with a zero, which the generated code never writes and refuses to read.
-/

namespace Rhosus.Pb

open Proto

section Codec

/-- What the generated code reads: nothing where it ends in an error. -/
def decoded {M : Type} (msg : Message M) (bs : Bytes) : Option M :=
  let (m, ok) := msg.unmarshal msg.new bs
  if ok then some m else none

/-- Values of `α` as messages. Not every message need be one. -/
structure Form (α M : Type) where
  msg : Message M
  sound : msg.Sound
  toMsg : α → M
  ofMsg : M → Option α
  ofMsg_toMsg : ∀ a, ofMsg (toMsg a) = some a

variable {α M : Type}

/-- The codec does what the generated code does, on every value that fits its message and on all
bytes that the generated code reads without an error. -/
structure Agrees (c : Registry.Codec α) (form : Form α M) : Prop where
  marshal : ∀ a, form.msg.fits (form.toMsg a) →
    form.msg.methods.marshal (form.toMsg a) = some (c.marshal a)
  unmarshal : ∀ bs m, decoded form.msg bs = some m → c.unmarshal bs = form.ofMsg m

theorem decoded_encode {msg : Message M} {m : M} (h : msg.Sound) (hfits : msg.fits m) :
    decoded msg (msg.encode m) = some m := by
  have hread := (Message.lawful h).unmarshal hfits
  rw [Methods.bytes, Message.marshal_eq h hfits, Option.getD_some] at hread
  change msg.unmarshal msg.new (msg.encode m) = (m, true) at hread
  rw [decoded, hread]
  rfl

theorem decoded_zero (msg : Message M) (bs : Bytes) : decoded msg (0 :: bs) = none := by
  have hread : readVarint 64 (0 :: bs) = (0, some bs) := by
    simp [readVarint, readVarintFrom]
  rw [decoded, Message.unmarshal, Proto.unmarshal, List.length_cons, unmarshalFrom, hread]
  simp

variable [Countable α]

/-- Bytes for the values that do not fit. -/
noncomputable def misfit (a : α) : Bytes :=
  0 :: List.replicate ((exists_injective_nat α).choose a) 0

theorem misfit_injective : Function.Injective (misfit : α → Bytes) := by
  intro a b h
  refine (exists_injective_nat α).choose_spec ?_
  have hlen := congrArg List.length h
  simpa [misfit] using hlen

/-- The generated code, and something else for what it cannot write. -/
noncomputable def Form.codec (form : Form α M) : Registry.Codec α where
  marshal a :=
    if form.msg.fits (form.toMsg a) then form.msg.encode (form.toMsg a) else misfit a
  unmarshal bs :=
    if (decoded form.msg bs).isSome then (decoded form.msg bs).bind form.ofMsg
    else Function.partialInv misfit bs
  unmarshal_marshal a := by
    by_cases hfits : form.msg.fits (form.toMsg a)
    · rw [if_pos hfits, decoded_encode form.sound hfits, Option.isSome_some, if_pos rfl,
        Option.bind_some, form.ofMsg_toMsg]
    · rw [if_neg hfits, misfit, decoded_zero, Option.isSome_none, if_neg Bool.false_ne_true]
      exact Function.partialInv_left misfit_injective a

theorem Form.codec_agrees (form : Form α M) : Agrees form.codec form where
  marshal a hfits := by
    rw [Message.marshal_eq form.sound hfits]
    exact congrArg some (if_pos hfits).symm
  unmarshal bs m h := by
    simp only [codec, h, Option.isSome_some, if_true, Option.bind_some]

end Codec

section Forms

/-- The number of a type on the wire; 2 is not used. -/
def fileTypeCode : Registry.FileType → ℤ
  | .dir => 0
  | .file => 1
  | .symlink => 3

def fileTypeOf (code : ℤ) : Option Registry.FileType :=
  if code = 0 then some .dir else if code = 1 then some .file
  else if code = 3 then some .symlink else none

def toFileInfo (f : Registry.FileInfo) : FileInfo :=
  ⟨f.id, f.parentID, fileTypeCode f.type, f.name, f.path, f.fileSize, f.permission, f.owner,
    f.group, f.symlink, f.replication⟩

/-- A file whose type is none of those is left out. -/
def ofFileInfo (m : FileInfo) : Option Registry.FileInfo :=
  (fileTypeOf m.type).map fun type => ⟨m.id, m.parentID, type, m.name, m.path, m.fileSize,
    m.permission, m.owner, m.group, m.symlink, m.replication⟩

theorem ofFileInfo_toFileInfo (f : Registry.FileInfo) : ofFileInfo (toFileInfo f) = some f := by
  obtain ⟨id, parentID, type, name, path, fileSize, permission, owner, group, symlink, repl⟩ := f
  cases type <;> rfl

def fileForm : Form Registry.FileInfo FileInfo :=
  ⟨fileInfo, fileInfo_sound, toFileInfo, ofFileInfo, ofFileInfo_toFileInfo⟩

/-- A message of the model's own type. -/
def ownForm {M : Type} (msg : Message M) (h : msg.Sound) : Form M M :=
  ⟨msg, h, id, some, fun _ => rfl⟩

/-- An entry about something; one about nothing is left out. -/
def sayingForm {α M : Type} (form : Form α M) : Form (Bytes × α) (Saying (Option M)) where
  msg := saying form.msg.methods
  sound := saying_sound (Message.lawful form.sound)
  toMsg p := ⟨p.1, some (form.toMsg p.2)⟩
  ofMsg m := (m.said.bind form.ofMsg).map (m.nodeId, ·)
  ofMsg_toMsg p := by simp [form.ofMsg_toMsg]

def namingForm : Form (Bytes × Bytes) (Saying Bytes) :=
  ⟨naming, naming_sound, fun p => ⟨p.1, p.2⟩, fun m => some (m.nodeId, m.said), fun _ => rfl⟩

/-- The rack is not set. -/
def assignBlocksForm : Form (Bytes × List Registry.BlockInfo) EntryAssignBlocks :=
  ⟨entryAssignBlocks, entryAssignBlocks_sound, fun p => ⟨p.1, p.2, []⟩,
    fun m => some (m.nodeId, m.blocks), fun _ => rfl⟩

def deleteBlocksForm :
    Form (Bytes × List Registry.BlockInfo) (Saying (List Registry.BlockInfo)) :=
  ⟨entryDeleteBlocks, entryDeleteBlocks_sound, fun p => ⟨p.1, p.2⟩,
    fun m => some (m.nodeId, m.said), fun _ => rfl⟩

end Forms

section Countable

-- Named, or `wire` rests on lemmas of `someEnv`, which needs the same.
instance countableFileEntry : Countable (Bytes × Registry.FileInfo) := inferInstance

instance countableBlocksEntry : Countable (Bytes × List Registry.BlockInfo) := inferInstance

instance countablePolicyEntry : Countable (Bytes × Registry.Policy) := inferInstance

instance countableTokenEntry : Countable (Bytes × Registry.Token) := inferInstance

instance countableNameEntry : Countable (Bytes × Bytes) := inferInstance

end Countable

/-- The messages of the storage and of the log. -/
noncomputable def wire : Registry.Messages where
  file := fileForm.codec
  block := (ownForm blockInfo blockInfo_sound).codec
  token := (ownForm token token_sound).codec
  policy := (ownForm policy policy_sound).codec
  assignFile := (sayingForm fileForm).codec
  deleteFile := (sayingForm fileForm).codec
  assignBlocks := assignBlocksForm.codec
  deleteBlocks := deleteBlocksForm.codec
  createPolicy := (sayingForm (ownForm policy policy_sound)).codec
  deletePolicy := namingForm.codec
  createToken := (sayingForm (ownForm token token_sound)).codec
  revokeToken := namingForm.codec

/-- The generated code is a part of messages that are read back as they were written, so that what
is known of those holds of it: all bytes that it writes are theirs, and all that it reads is. -/
theorem wire_agrees :
    Agrees wire.file fileForm
      ∧ Agrees wire.block (ownForm blockInfo blockInfo_sound)
      ∧ Agrees wire.token (ownForm token token_sound)
      ∧ Agrees wire.policy (ownForm policy policy_sound)
      ∧ Agrees wire.assignFile (sayingForm fileForm)
      ∧ Agrees wire.deleteFile (sayingForm fileForm)
      ∧ Agrees wire.assignBlocks assignBlocksForm
      ∧ Agrees wire.deleteBlocks deleteBlocksForm
      ∧ Agrees wire.createPolicy (sayingForm (ownForm policy policy_sound))
      ∧ Agrees wire.deletePolicy namingForm
      ∧ Agrees wire.createToken (sayingForm (ownForm token token_sound))
      ∧ Agrees wire.revokeToken namingForm :=
  ⟨Form.codec_agrees _, Form.codec_agrees _, Form.codec_agrees _, Form.codec_agrees _,
    Form.codec_agrees _, Form.codec_agrees _, Form.codec_agrees _, Form.codec_agrees _,
    Form.codec_agrees _, Form.codec_agrees _, Form.codec_agrees _, Form.codec_agrees _⟩

end Rhosus.Pb
