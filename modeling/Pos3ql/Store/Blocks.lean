import Pos3ql.Foundation.Bytes

/-!
# Blocks

Immutable blocks, each stored under its identity. The identity is a hash of the content, so a block
that is present already is not stored twice, and nothing that was stored is ever replaced.

* `BlockStore`, `BlockStore.Extends`: what is stored, and that nothing is lost.
* `BlockWriter`: who names blocks. Its law is what the code takes from the hash: two blocks of one
  store have different identities, and no block has the identity zero, which stands for an absent
  block. A writer may refuse, as a store does when it cannot write.
* `writeBlock_ok`: what a write does.

Source: `store/mod.rs` (`BlockId`, `BlockType`, `BlockStore`, `BlockWriter`).
-/

namespace Pos3ql

open Foundation

/-- Its 32 bytes, as a number. Source: `BlockId`. -/
structure BlockId where
  value : ℕ
  bound : value < 256 ^ 32
  deriving DecidableEq

/-- The types of the blocks of an index. Source: `BlockType`. -/
inductive BlockType
  | valueIndexData
  | valueIndexRoster
  | valueIndexNavigationV1
  | valueIndexPostingV1
  deriving DecidableEq, Repr

/-- Source: the arguments of `write_block`; blocks of an index have the LSN zero. -/
structure Block where
  payload : Bytes
  kind : BlockType
  deriving DecidableEq, Repr

/-- Source: `ValueIndexError`; the errors of the store are one. -/
inductive ValueIndexError
  | keyTooLarge
  | keyOutOfOrder
  | corrupt
  | store
  deriving DecidableEq, Repr

/-- What is stored. Source: `BlockStore`. -/
abbrev BlockStore := BlockId → Option Block

namespace BlockStore

/-- Everything stored is still there. -/
def Extends (before after : BlockStore) : Prop := ∀ id b, before id = some b → after id = some b

lemma Extends.refl (s : BlockStore) : s.Extends s := fun _ _ h => h

lemma Extends.trans {a b c : BlockStore} (h : a.Extends b) (h' : b.Extends c) : a.Extends c :=
  fun id block hid => h' id block (h id block hid)

end BlockStore

/-- **Who names blocks.** Source: `BlockWriter`. -/
structure BlockWriter where
  name : BlockStore → Block → Option BlockId
  apart : ∀ s b id, name s b = some id → id.value ≠ 0 ∧ (s id = none ∨ s id = some b)

namespace BlockWriter

variable {w : BlockWriter} {s s' : BlockStore} {b : Block} {id : BlockId}

/-- Source: `write_block`. -/
def writeBlock (w : BlockWriter) (s : BlockStore) (b : Block) :
    Except ValueIndexError (BlockStore × BlockId) :=
  match w.name s b with
  | none => .error .store
  | some id => .ok (Function.update s id (some b), id)

/-- **What a write does.** -/
theorem writeBlock_ok (h : w.writeBlock s b = .ok (s', id)) :
    s.Extends s' ∧ s' id = some b ∧ id.value ≠ 0 := by
  unfold writeBlock at h
  rcases hname : w.name s b with _ | named
  · rw [hname] at h
    cases h
  rw [hname] at h
  obtain ⟨rfl, rfl⟩ := Prod.mk.inj (Except.ok.inj h)
  obtain ⟨hzero, hapart⟩ := w.apart s b named hname
  refine ⟨fun other block hother => ?_, Function.update_self .., hzero⟩
  by_cases heq : other = named
  · subst heq
    rcases hapart with hnone | hsame
    · rw [hnone] at hother
      cases hother
    · rw [Function.update_self, ← hsame, hother]
  · rw [Function.update_of_ne heq, hother]

end BlockWriter

end Pos3ql
