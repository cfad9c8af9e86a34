import Pos3ql.Foundation.Bytes
import Pos3ql.SqlError

/-!
# Journal operations and their payloads

The operations a transaction journals, the bytes of each one's payload, and the decoder recovery
runs over them. Source: `wal/mod.rs` (`WalOp`, `op_kind`, `append_payload`, `decode_op`).

Modelled in full: row changes, logical messages, sequence positions, the database scope that opens a
batch, and the two-phase and commit operations. The operations on the catalog (tables, views, roles,
…), of which the journal sees only a kind and a payload, are one constructor over a `CatalogCodec`,
whose law is that the decoder takes back what the encoder wrote.

* **`WalOp.decodeOp_payload`**: the decoder accepts the payload of every operation and returns the
  operation.
-/

namespace Pos3ql

open Foundation List

/-! ## Field types -/

/-- A text of at most `limit` bytes. Source: `name_bytes` (255), `LogicalMessage::prefix`
(65535). -/
structure ShortText (limit : ℕ) where
  text : String
  short : text.utf8ByteSize ≤ limit
  deriving DecidableEq

/-- A name in a payload. -/
abbrev WalName := ShortText 255

/-- Source: `CatalogPosition`. -/
structure CatalogPosition where
  slot : UInt16
  createdAt : UInt64
  nonzero : createdAt ≠ 0
  deriving DecidableEq

/-- Source: `RoleOid`, with the check of `RoleOid::parse`. -/
structure RoleOid where
  value : Int32
  valid : value = 10 ∨ 16384 < value
  deriving DecidableEq

namespace ShortText

variable {limit : ℕ}

/-- The bytes of a text. -/
def bytes (t : ShortText limit) : Bytes := t.text.toUTF8.data.toList

/-- Source: `core::str::from_utf8`. -/
def ofBytes (limit : ℕ) (raw : Bytes) : Option (ShortText limit) :=
  match String.fromUTF8? ⟨raw.toArray⟩ with
  | some text => if h : text.utf8ByteSize ≤ limit then some ⟨text, h⟩ else none
  | none => none

lemma length_bytes (t : ShortText limit) : t.bytes.length ≤ limit := t.short

lemma ofBytes_bytes (t : ShortText limit) : ofBytes limit t.bytes = some t := by
  have hutf : String.fromUTF8? ⟨t.bytes.toArray⟩ = some t.text := by
    simp [bytes, String.fromUTF8?, String.fromUTF8, t.text.isValidUTF8]
  unfold ofBytes
  rw [hutf]
  exact dif_pos t.short

end ShortText

/-- A name with its length in `w` bytes. Source: `name_bytes`, `take_name`. -/
def takeText (w limit : ℕ) : Take (ShortText limit) := do
  let raw ← Take.counted w
  Take.ofOption (ShortText.ofBytes limit raw)

lemma takeText_append {w limit : ℕ} (hlimit : limit < 256 ^ w) (t : ShortText limit)
    {rest : Bytes} :
    (takeText w limit).run (Take.countedBytes w t.bytes ++ rest) = some (t, rest) := by
  unfold takeText
  rw [Take.run_bind_some (Take.counted_append (t.length_bytes.trans_lt hlimit))]
  exact Take.ofOption_run t.ofBytes_bytes

/-! ## Operations -/

/-- Source: `record_kind_known`, the registry of record kinds. -/
def recordKindKnown (kind : UInt8) : Bool :=
  decide (1 ≤ kind ∧ kind ≤ 158 ∧ kind ∉ [9, 35, 42, 111, 135, 136, 137, 138])

/-- The kinds of the operations modelled in full; 3 and 153 decode alike. -/
def modelledKinds : List UInt8 := [98, 3, 153, 4, 131, 19, 37, 107, 110, 108, 109]

/-- The catalog operations: kind and payload of each, the checks `append_record` makes first, and a
decoder that takes the payloads back. -/
structure CatalogCodec where
  Op : Type
  kind : Op → UInt8
  payload : Op → Bytes
  validate : Op → Except SqlError Unit
  decode : UInt8 → Bytes → Option Op
  kind_known : ∀ op, recordKindKnown (kind op) = true
  kind_catalog : ∀ op, kind op ∉ modelledKinds
  decode_payload : ∀ op, decode (kind op) (payload op) = some op

/-- No catalog operations: a journal of rows, sequences and markers. -/
def CatalogCodec.rowsOnly : CatalogCodec where
  Op := Empty
  kind := Empty.elim
  payload := Empty.elim
  validate := Empty.elim
  decode := fun _ _ => none
  kind_known := fun op => op.elim
  kind_catalog := fun op => op.elim
  decode_payload := fun op => op.elim

/-- Source: `WalOp`. -/
inductive WalOp (C : CatalogCodec)
  | databaseScope (oid : Int32)
  | upsert (schema table : WalName) (rowid : UInt64) (row : Bytes) (isUpdate : Bool)
      (oldRow : Option Bytes) (commandId : UInt32)
  | delete (schema table : WalName) (rowid : UInt64) (oldRow : Option Bytes) (commandId : UInt32)
  | logicalMessage (transactional : Bool) (messageLsn : UInt64) (commandId : UInt32)
      (messagePrefix : ShortText 65535) (content : Bytes)
  | sequenceAdvance (identity : CatalogPosition) (schema name : WalName) (last : Int64)
    (isCalled : Bool)
  | commit (transactionId : UInt32) (assignedTransactionIdentity : Bool)
    (committedAt : Option Int64)
  | prepareTransaction (transactionId : UInt32) (owner : RoleOid) (database : Int32)
      (preparedAt : Int64) (gid : WalName)
  | preparedLocks (transactionId : UInt32) (encoded : Bytes)
  | commitPrepared (gid : WalName)
  | rollbackPrepared (gid : WalName)
  | catalog (op : C.Op)

/-- Source: `KIND_COMMIT`. -/
def kindCommit : UInt8 := 37

/-- Source: `KIND_PREPARE_TRANSACTION`. -/
def kindPrepareTransaction : UInt8 := 107

namespace WalOp

variable {C : CatalogCodec}

/-- Source: `op_kind`. -/
def kind : WalOp C → UInt8
  | .databaseScope .. => 98
  | .upsert .. => 153
  | .delete .. => 4
  | .logicalMessage .. => 131
  | .sequenceAdvance .. => 19
  | .commit .. => kindCommit
  | .prepareTransaction .. => kindPrepareTransaction
  | .preparedLocks .. => 110
  | .commitPrepared .. => 108
  | .rollbackPrepared .. => 109
  | .catalog op => C.kind op

/-- Source: `CatalogPosition::encode`. -/
def positionBytes (p : CatalogPosition) : Bytes :=
    leBytes 2 p.slot.toNat ++ leBytes 8 p.createdAt.toNat

/-- Source: `append_payload`. -/
def payload : WalOp C → Bytes
  | .databaseScope oid => leBytes 4 oid.toUInt32.toNat
  | .upsert schema table rowid row isUpdate oldRow commandId =>
    Take.countedBytes 1 table.bytes ++ (leBytes 8 rowid.toNat ++ (Take.countedBytes 4 row ++
      (Take.countedBytes 1 schema.bytes ++ (Take.flagBytes isUpdate ++
        (Take.optionalBytes (Take.countedBytes 4) oldRow ++ leBytes 4 commandId.toNat)))))
  | .delete schema table rowid oldRow commandId =>
    Take.countedBytes 1 table.bytes ++ (leBytes 8 rowid.toNat ++
      (Take.countedBytes 1 schema.bytes ++ (Take.optionalBytes (Take.countedBytes 4) oldRow ++
        leBytes 4 commandId.toNat)))
  | .logicalMessage transactional messageLsn commandId messagePrefix content =>
    Take.flagBytes transactional ++ (leBytes 8 messageLsn.toNat ++ (leBytes 4 commandId.toNat ++
      (Take.countedBytes 2 messagePrefix.bytes ++ Take.countedBytes 4 content)))
  | .sequenceAdvance identity schema name last isCalled =>
    positionBytes identity ++ (Take.countedBytes 1 name.bytes ++
      (Take.countedBytes 1 schema.bytes ++
        (leBytes 8 last.toUInt64.toNat ++ Take.flagBytes isCalled)))
  | .commit transactionId assigned committedAt =>
    leBytes 4 transactionId.toNat ++ (Take.flagBytes assigned ++
      match committedAt with
      | none => []
      | some at_ => leBytes 8 at_.toUInt64.toNat)
  | .prepareTransaction transactionId owner database preparedAt gid =>
    leBytes 4 transactionId.toNat ++ (leBytes 4 owner.value.toUInt32.toNat ++
      (leBytes 4 database.toUInt32.toNat ++ (leBytes 8 preparedAt.toUInt64.toNat ++
        Take.countedBytes 1 gid.bytes)))
  | .preparedLocks transactionId encoded =>
    leBytes 4 transactionId.toNat ++ Take.countedBytes 4 encoded
  | .commitPrepared gid => Take.countedBytes 1 gid.bytes
  | .rollbackPrepared gid => Take.countedBytes 1 gid.bytes
  | .catalog op => C.payload op

/-! ## The decoder -/

/-- Source: `CatalogPosition::decode`. -/
def takePosition : Take CatalogPosition := do
  let slot ← Take.le 2
  let createdAt ← Take.le 8
  Take.ofOption
    (if h : UInt64.ofNat createdAt ≠ 0 then some ⟨UInt16.ofNat slot, UInt64.ofNat createdAt, h⟩
    else none)

/-- Source: `RoleOid::parse`. -/
def parseRole (value : Int32) : Option RoleOid :=
  if h : value = 10 ∨ 16384 < value then some ⟨value, h⟩ else none

/-- A signed number of four bytes. -/
def takeInt32 : Take Int32 := do
  let n ← Take.le 4
  pure (UInt32.ofNat n).toInt32

/-- A signed number of eight bytes. -/
def takeInt64 : Take Int64 := do
  let n ← Take.le 8
  pure (UInt64.ofNat n).toInt64

/-- Source: `decode_op`, `KIND_UPSERT` and `KIND_UPSERT_V2`. -/
def takeUpsert : Take (WalOp C) := do
  let table ← takeText 1 255
  let rowid ← Take.le 8
  let row ← Take.counted 4
  let schema ← takeText 1 255
  let isUpdate ← Take.flag
  let oldRow ← Take.optional (Take.counted 4)
  let commandId ← Take.le 4
  pure (.upsert schema table (UInt64.ofNat rowid) row isUpdate oldRow (UInt32.ofNat commandId))

/-- Source: `decode_op`, `KIND_DELETE`. -/
def takeDelete : Take (WalOp C) := do
  let table ← takeText 1 255
  let rowid ← Take.le 8
  let schema ← takeText 1 255
  let oldRow ← Take.optional (Take.counted 4)
  let commandId ← Take.le 4
  pure (.delete schema table (UInt64.ofNat rowid) oldRow (UInt32.ofNat commandId))

/-- Source: `decode_op`, `KIND_LOGICAL_MESSAGE`. -/
def takeLogicalMessage : Take (WalOp C) := do
  let transactional ← Take.flag
  let messageLsn ← Take.le 8
  let commandId ← Take.le 4
  let messagePrefix ← takeText 2 65535
  let content ← Take.counted 4
  pure (.logicalMessage transactional (UInt64.ofNat messageLsn) (UInt32.ofNat commandId)
    messagePrefix content)

/-- Source: `decode_op`, `KIND_SEQUENCE_ADVANCE`. -/
def takeSequenceAdvance : Take (WalOp C) := do
  let identity ← takePosition
  let name ← takeText 1 255
  let schema ← takeText 1 255
  let last ← takeInt64
  let isCalled ← Take.flag
  pure (.sequenceAdvance identity schema name last isCalled)

/-- Source: `decode_op`, `KIND_PREPARE_TRANSACTION`. -/
def takePrepareTransaction : Take (WalOp C) := do
  let transactionId ← Take.le 4
  let owner ← takeInt32
  let owner ← Take.ofOption (parseRole owner)
  let database ← takeInt32
  let preparedAt ← takeInt64
  let gid ← takeText 1 255
  pure (.prepareTransaction (UInt32.ofNat transactionId) owner database preparedAt gid)

/-- Source: `decode_op`, `KIND_PREPARED_LOCKS`. -/
def takePreparedLocks : Take (WalOp C) := do
  let transactionId ← Take.le 4
  let encoded ← Take.counted 4
  pure (.preparedLocks (UInt32.ofNat transactionId) encoded)

/-- Records of older versions carry less. Source: `decode_op`, `KIND_COMMIT`. -/
def decodeCommit (payload : Bytes) : Option (WalOp C) :=
  if payload = [] then some (.commit 0 false none)
  else if payload.length < 4 then none
  else
    let transactionId := UInt32.ofNat (leNat (payload.take 4))
    match payload.drop 4 with
    | [] => some (.commit transactionId false none)
    | [0] => some (.commit transactionId false none)
    | [1] => some (.commit transactionId true none)
    | assigned :: rest =>
      if (assigned = 0 ∨ assigned = 1) ∧ rest.length = 8 then
        some
          (.commit transactionId (decide (assigned ≠ 0)) (some (UInt64.ofNat (leNat rest)).toInt64))
      else none

/-- Source: `decode_op`. -/
def decodeOp (C : CatalogCodec) (kind : UInt8) (payload : Bytes) : Option (WalOp C) :=
  if kind = 98 then takeInt32.all payload |>.map .databaseScope
  else if kind = 3 ∨ kind = 153 then takeUpsert.all payload
  else if kind = 4 then takeDelete.all payload
  else if kind = 131 then takeLogicalMessage.all payload
  else if kind = 19 then takeSequenceAdvance.all payload
  else if kind = kindCommit then decodeCommit payload
  else if kind = kindPrepareTransaction then takePrepareTransaction.all payload
  else if kind = 110 then takePreparedLocks.all payload
  else if kind = 108 then (takeText 1 255).all payload |>.map .commitPrepared
  else if kind = 109 then (takeText 1 255).all payload |>.map .rollbackPrepared
  else (C.decode kind payload).map .catalog

/-! ## The round trip -/

variable {rest : Bytes} {commandId : UInt32}

lemma takeInt32_append (v : Int32) :
    takeInt32.run (leBytes 4 v.toUInt32.toNat ++ rest) = some (v, rest) := by
  unfold takeInt32
  rw [Take.run_bind_some (Take.le_append v.toUInt32.toNat_lt)]
  simp

lemma takeInt64_append (v : Int64) :
    takeInt64.run (leBytes 8 v.toUInt64.toNat ++ rest) = some (v, rest) := by
  unfold takeInt64
  rw [Take.run_bind_some (Take.le_append v.toUInt64.toNat_lt)]
  simp

lemma takePosition_append (p : CatalogPosition) :
    takePosition.run (positionBytes p ++ rest) = some (p, rest) := by
  unfold takePosition positionBytes
  rw [append_assoc, Take.run_bind_some (Take.le_append p.slot.toNat_lt),
    Take.run_bind_some (Take.le_append p.createdAt.toNat_lt)]
  refine Take.ofOption_run ?_
  simp only [UInt16.ofNat_toNat, UInt64.ofNat_toNat]
  exact dif_pos p.nonzero

/-- A string counted in four bytes, within a payload of less than four gibibytes. -/
lemma counted_append_of_le {raw : Bytes} {total : ℕ} (hraw : raw.length ≤ total)
    (htotal : total < 2 ^ 32) :
    (Take.counted 4).run (Take.countedBytes 4 raw ++ rest) = some (raw, rest) :=
  Take.counted_append (hraw.trans_lt htotal)

lemma optional_counted_append {value : Option Bytes} {total : ℕ}
    (hvalue : (Take.optionalBytes (Take.countedBytes 4) value).length ≤ total)
    (htotal : total < 2 ^ 32) :
    (Take.optional (Take.counted 4)).run (Take.optionalBytes (Take.countedBytes 4) value ++ rest) =
      some (value, rest) := by
  refine Take.optional_append fun raw hsome => counted_append_of_le ?_ htotal
  rw [hsome] at hvalue
  simp only [Take.optionalBytes, Take.countedBytes, length_append] at hvalue
  omega

lemma takeUpsert_payload {schema table : WalName} {rowid : UInt64} {row : Bytes} {isUpdate : Bool}
    {oldRow : Option Bytes}
    (h : (upsert (C := C) schema table rowid row isUpdate oldRow commandId).payload.length <
      2 ^ 32) :
    (takeUpsert (C := C)).run
      (upsert (C := C) schema table rowid row isUpdate oldRow commandId).payload =
      some (upsert schema table rowid row isUpdate oldRow commandId, []) := by
  have hrow : row.length ≤
      (upsert (C := C) schema table rowid row isUpdate oldRow commandId).payload.length := by
    simp only [payload, Take.countedBytes, length_append]
    omega
  have hold : (Take.optionalBytes (Take.countedBytes 4) oldRow).length ≤
      (upsert (C := C) schema table rowid row isUpdate oldRow commandId).payload.length := by
    simp only [payload, length_append]
    omega
  unfold takeUpsert
  rw [payload, Take.run_bind_some (takeText_append (by decide) table),
    Take.run_bind_some (Take.le_append rowid.toNat_lt),
    Take.run_bind_some (counted_append_of_le hrow h),
    Take.run_bind_some (takeText_append (by decide) schema),
    Take.run_bind_some (Take.flag_append isUpdate),
    Take.run_bind_some (optional_counted_append hold h)]
  rw [Take.run_bind_some (Take.run_of_append (Take.le_append commandId.toNat_lt))]
  simp

lemma takeDelete_payload {schema table : WalName} {rowid : UInt64} {oldRow : Option Bytes}
    (h : (delete (C := C) schema table rowid oldRow commandId).payload.length < 2 ^ 32) :
    (takeDelete (C := C)).run (delete (C := C) schema table rowid oldRow commandId).payload =
      some (delete schema table rowid oldRow commandId, []) := by
  have hold : (Take.optionalBytes (Take.countedBytes 4) oldRow).length ≤
      (delete (C := C) schema table rowid oldRow commandId).payload.length := by
    simp only [payload, length_append]
    omega
  unfold takeDelete
  rw [payload, Take.run_bind_some (takeText_append (by decide) table),
    Take.run_bind_some (Take.le_append rowid.toNat_lt),
    Take.run_bind_some (takeText_append (by decide) schema),
    Take.run_bind_some (optional_counted_append hold h),
    Take.run_bind_some (Take.run_of_append (Take.le_append commandId.toNat_lt))]
  simp

lemma takeLogicalMessage_payload {transactional : Bool} {messageLsn : UInt64}
    {messagePrefix : ShortText 65535} {cont : Bytes}
    (h : (logicalMessage (C := C) transactional messageLsn commandId messagePrefix
      cont).payload.length < 2 ^ 32) :
    (takeLogicalMessage (C := C)).run
        (logicalMessage (C := C) transactional messageLsn commandId messagePrefix cont).payload =
      some (logicalMessage transactional messageLsn commandId messagePrefix cont, []) := by
  have hcontent : cont.length ≤ (logicalMessage (C := C) transactional messageLsn commandId
      messagePrefix cont).payload.length := by
    simp only [payload, Take.countedBytes, length_append]
    omega
  unfold takeLogicalMessage
  rw [payload, Take.run_bind_some (Take.flag_append transactional),
    Take.run_bind_some (Take.le_append messageLsn.toNat_lt),
    Take.run_bind_some (Take.le_append commandId.toNat_lt),
    Take.run_bind_some (takeText_append (by decide) messagePrefix),
    Take.run_bind_some (Take.run_of_append (counted_append_of_le hcontent h))]
  simp

lemma takeSequenceAdvance_payload (ident : CatalogPosition) (schema name : WalName) (last : Int64)
    (isCalled : Bool) :
    (takeSequenceAdvance (C := C)).run
      (sequenceAdvance (C := C) ident schema name last isCalled).payload =
      some (sequenceAdvance ident schema name last isCalled, []) := by
  unfold takeSequenceAdvance
  rw [payload, Take.run_bind_some (takePosition_append ident),
    Take.run_bind_some (takeText_append (by
    decide) name), Take.run_bind_some (takeText_append (by decide) schema), Take.run_bind_some
    (takeInt64_append last), Take.run_bind_some (Take.run_of_append (Take.flag_append isCalled))]
  rfl

lemma takePrepareTransaction_payload (tx : UInt32) (owner : RoleOid) (db : Int32)
    (preparedAt : Int64) (gid : WalName) :
    (takePrepareTransaction (C := C)).run
      (prepareTransaction (C := C) tx owner db preparedAt gid).payload =
      some (prepareTransaction tx owner db preparedAt gid, []) := by
  have hrole : parseRole owner.value = some owner := dif_pos owner.valid
  unfold takePrepareTransaction
  rw [payload, Take.run_bind_some (Take.le_append tx.toNat_lt),
    Take.run_bind_some (takeInt32_append owner.value),
    Take.run_bind_some (Take.ofOption_run hrole), Take.run_bind_some (takeInt32_append db),
    Take.run_bind_some (takeInt64_append preparedAt),
    Take.run_bind_some (Take.run_of_append (takeText_append (by decide) gid))]
  simp

lemma takePreparedLocks_payload {tx : UInt32} {encoded : Bytes}
    (h : (preparedLocks (C := C) tx encoded).payload.length < 2 ^ 32) :
    (takePreparedLocks (C := C)).run (preparedLocks (C := C) tx encoded).payload =
      some (preparedLocks tx encoded, []) := by
  have hencoded : encoded.length ≤ (preparedLocks (C := C) tx encoded).payload.length := by
    simp only [payload, Take.countedBytes, length_append]
    omega
  unfold takePreparedLocks
  rw [payload, Take.run_bind_some (Take.le_append tx.toNat_lt),
    Take.run_bind_some (Take.run_of_append (counted_append_of_le hencoded h))]
  simp

lemma decodeCommit_payload (tx : UInt32) (assigned : Bool) (committedAt : Option Int64) :
    decodeCommit (C := C) (commit (C := C) tx assigned committedAt).payload =
      some (commit tx assigned committedAt) := by
  have htake : ∀ rest : Bytes, ((leBytes 4 tx.toNat) ++ rest).take 4 =
      leBytes 4 tx.toNat := fun rest => take_left' (length_leBytes 4 _)
  have hdrop : ∀ rest : Bytes, ((leBytes 4 tx.toNat) ++ rest).drop 4 = rest :=
    fun rest => drop_left' (length_leBytes 4 _)
  unfold decodeCommit payload
  rw [if_neg (by simp [leBytes])]
  rw [htake, hdrop, leNat_leBytes tx.toNat_lt, UInt32.ofNat_toNat]
  rcases committedAt with _ | committedAt
  · cases assigned <;> rfl
  -- the tail has nine bytes, so none of the short forms applies
  have htail : Take.flagBytes assigned ++ leBytes 8 committedAt.toUInt64.toNat =
      (if assigned then 1 else 0) :: leBytes 8 committedAt.toUInt64.toNat := rfl
  rw [htail]
  have hlen : (leBytes 8 committedAt.toUInt64.toNat).length = 8 := length_leBytes 8 _
  have hback : leNat (leBytes 8 committedAt.toUInt64.toNat) = committedAt.toUInt64.toNat :=
    leNat_leBytes committedAt.toUInt64.toNat_lt
  generalize leBytes 8 committedAt.toUInt64.toNat = raw at hlen hback ⊢
  rcases raw with _ | ⟨b, raw⟩
  · simp at hlen
  · cases assigned <;> simp [hlen, hback]

lemma decodeOp_kinds (raw : Bytes) :
    decodeOp C 98 raw = (takeInt32.all raw).map .databaseScope ∧
      decodeOp C 153 raw = takeUpsert.all raw ∧ decodeOp C 4 raw = takeDelete.all raw ∧
      decodeOp C 131 raw = takeLogicalMessage.all raw ∧
      decodeOp C 19 raw = takeSequenceAdvance.all raw ∧
      decodeOp C kindCommit raw = decodeCommit raw ∧
      decodeOp C kindPrepareTransaction raw = takePrepareTransaction.all raw ∧
      decodeOp C 110 raw = takePreparedLocks.all raw ∧
      decodeOp C 108 raw = ((takeText 1 255).all raw).map .commitPrepared ∧
      decodeOp C 109 raw = ((takeText 1 255).all raw).map .rollbackPrepared :=
  ⟨rfl, rfl, rfl, rfl, rfl, rfl, rfl, rfl, rfl, rfl⟩

/-- **The decoder takes back every payload.** -/
theorem decodeOp_payload (op : WalOp C) (h : op.payload.length < 2 ^ 32) :
    decodeOp C op.kind op.payload = some op := by
  obtain ⟨h₁, h₂, h₃, h₄, h₅, h₆, h₇, h₈, h₉, h₁₀⟩ := decodeOp_kinds (C := C) op.payload
  cases op with
  | databaseScope oid =>
    rw [kind, h₁, payload, Take.all_of_run (Take.run_of_append (takeInt32_append oid))]
    rfl
  | upsert => rw [kind, h₂, Take.all_of_run (takeUpsert_payload h)]
  | delete => rw [kind, h₃, Take.all_of_run (takeDelete_payload h)]
  | logicalMessage => rw [kind, h₄, Take.all_of_run (takeLogicalMessage_payload h)]
  | sequenceAdvance => rw [kind, h₅, Take.all_of_run (takeSequenceAdvance_payload ..)]
  | commit => rw [kind, h₆, decodeCommit_payload]
  | prepareTransaction => rw [kind, h₇, Take.all_of_run (takePrepareTransaction_payload ..)]
  | preparedLocks => rw [kind, h₈, Take.all_of_run (takePreparedLocks_payload h)]
  | commitPrepared gid =>
    rw [kind, h₉, payload, Take.all_of_run (Take.run_of_append (takeText_append (by decide) gid))]
    rfl
  | rollbackPrepared gid =>
    rw [kind, h₁₀, payload, Take.all_of_run (Take.run_of_append (takeText_append (by decide) gid))]
    rfl
  | catalog op =>
    have hkind := C.kind_catalog op
    simp only [modelledKinds, mem_cons, not_mem_nil, or_false, not_or] at hkind
    unfold decodeOp
    simp only [kind, kindCommit, kindPrepareTransaction, hkind, if_false, or_self]
    rw [payload, C.decode_payload]
    rfl

end WalOp

end Pos3ql
