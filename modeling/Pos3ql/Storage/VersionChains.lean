import Pos3ql.Storage.RowVersions

/-!
# Version chains as lists

The abstract view of the version arrays: every row has a list of committed history images and a
list of pending images, newest first, and the arrays with their links represent exactly these
lists. `Rep` is that relation, for an arbitrary set `κ` of rows; it carries the separation
invariant of `Pos3ql.Foundation.SlotPool` for both arrays, so that an operation on one row's chain
is provably the identity on every other row's.

Each function of `Pos3ql.Storage.RowVersions` gets one specification: under `Rep` it returns (no
panic, no endless walk), and its effect is a list operation on row `k` alone.

* `PendingRep.push`, `Rep.pop`, `Rep.clear`: pending versions are a stack;
* `CommittedRep.reserve`, `publishReserved`: a reserved slot becomes the newest history entry;
* `CommittedRep.prune`: pruning keeps the list up to the oldest reader's entry (`keepThrough`) and
  frees the other cells (`Cut`).
-/

namespace Pos3ql

open Foundation List Function SlotPool

/-- A list up to and including its first element satisfying `hit`. -/
def keepThrough {α : Type} (hit : α → Bool) : List α → List α
  | [] => []
  | x :: xs => if hit x then [x] else x :: keepThrough hit xs

lemma keepThrough_append {α : Type} {hit : α → Bool} {keep : List α} (h : ∀ x ∈ keep, hit x = false)
    (rest : List α) :
    keepThrough hit (keep ++ rest) = keep ++ keepThrough hit rest := by
  induction keep with
  | nil => rfl
  | cons x keep ih =>
    have hx : hit x = false := h x mem_cons_self
    simp [keepThrough, hx, ih (forall_mem_cons.mp h).2]

lemma keepThrough_length_le {α : Type} (hit : α → Bool) (l : List α) :
    (keepThrough hit l).length ≤ l.length := by
  induction l with
  | nil => exact le_rfl
  | cons x l ih =>
    rw [keepThrough]
    split_ifs
    · simp
    · simpa using ih

/-- The history that remains after pruning. Source: `prune_committed_chain`, as a list
function. -/
def prunedHistory (oldest : Option ℕ) (history : List CommittedVersion) : List CommittedVersion :=
  match oldest with
  | none => []
  | some oldest => keepThrough (fun v => decide (v.lsn ≤ oldest)) history

variable {κ : Type}

/-- Who may hold a cell of the committed array. -/
inductive HistoryOwner (κ : Type)
  /-- The cell is on row `k`'s history chain. -/
  | history (k : κ)
  /-- The cell is reserved by row `k`'s pending chain. -/
  | reserved (k : κ)
  deriving DecidableEq

/-- The slot a pending chain has reserved. -/
def PendingHistory.slot? : PendingHistory → Option ℕ
  | .reserved slot => some slot
  | .none => Option.none
  | .published => Option.none

/-- The tails of all chains of the committed array. -/
def historyTail (hist : κ → CommittedHistory) (v : κ → PendingVersions) : HistoryOwner κ → Option ℕ
  | .history k => (hist k).tail
  | .reserved k => (v k).historyReservation.slot?

/-- The pending array represents the lists `pl`. -/
structure PendingRep (pool : RowVersionPool PendingEntry) (v : κ → PendingVersions)
    (pl : κ → List PendingEntry) : Prop where
  /-- The chains are apart, and spell the lists. -/
  chains : ∃ cells free, pool.pool.Owned (fun k => (v k).tail) cells free ∧
    ∀ k, pool.pool.read (cells k) = pl k
  /-- The handles count their chains. -/
  len : ∀ k, (v k).len = (pl k).length

/-- The committed array represents the lists `hl`. -/
structure CommittedRep (pool : RowVersionPool CommittedVersion) (hist : κ → CommittedHistory)
    (v : κ → PendingVersions) (hl : κ → List CommittedVersion) : Prop where
  /-- The chains are apart, and spell the lists. -/
  chains : ∃ cells free, pool.pool.Owned (historyTail hist v) cells free ∧
    ∀ k, pool.pool.read (cells (.history k)) = hl k
  /-- The handles count their chains. -/
  len : ∀ k, (hist k).len = (hl k).length
  /-- A reserved slot is in use, ends its chain and holds no image. -/
  vacant : ∀ k slot, (v k).historyReservation = .reserved slot →
    pool.pool.slots[slot]? = some ⟨true, none, .vacant⟩

/-- A chain has been cut down to a list: the cells behind the kept ones are on the free list, each
once. -/
def Cut (p p' : SlotPool CommittedVersion) (tail : Option ℕ) (list : List CommittedVersion) :
    Prop :=
  ∃ keep drop free, p.Linked tail (keep ++ drop) ∧ p.read keep = list ∧ p.Linked p.free free ∧
    p'.Linked p'.free (drop.reverse ++ free) ∧ (drop.reverse ++ free).Nodup

/-- **Both arrays represent the given lists.** -/
structure Rep (vs : RowVersionState) (hist : κ → CommittedHistory) (v : κ → PendingVersions)
    (hl : κ → List CommittedVersion) (pl : κ → List PendingEntry) : Prop where
  /-- The committed side. -/
  committed : CommittedRep vs.committedRowVersions hist v hl
  /-- The pending side. -/
  pending : PendingRep vs.pendingRowVersions v pl

lemma Rep.new (pendingCapacity committedCapacity : ℕ) :
    Rep (κ := κ) (RowVersionState.new pendingCapacity committedCapacity) (fun _ => .empty)
      (fun _ => .empty) (fun _ => []) (fun _ => []) := by
  refine ⟨⟨⟨fun _ => [], [], ⟨fun o => ?_, .nil, by simp, by simp⟩, fun _ => rfl⟩, fun _ => rfl,
    fun k slot h => by cases h⟩, ⟨⟨fun _ => [], [], ⟨fun _ => .nil, .nil, by simp, by simp⟩,
    fun _ => rfl⟩, fun _ => rfl⟩⟩
  cases o <;> exact .nil

section Lists

variable {pool : RowVersionPool PendingEntry} {cpool : RowVersionPool CommittedVersion}
  {hist : κ → CommittedHistory} {v : κ → PendingVersions} {hl : κ → List CommittedVersion}
  {pl : κ → List PendingEntry}

lemma PendingRep.pendingHead_eq (h : PendingRep pool v pl) (k : κ) :
    pendingHead pool (v k) = some (pl k).head? := by
  obtain ⟨cells, free, howned, hread⟩ := h.chains
  have hlink := howned.linked k
  unfold pendingHead
  rcases htail : (v k).tail with _ | slot
  · rw [htail, Linked.none_iff] at hlink
    simp [← hread k, hlink]
  · rw [htail] at hlink
    obtain ⟨s, rest, hs, hcells, -⟩ := Linked.cons_iff.mp hlink
    simp [← hread k, hcells, hs, read_cons hs]

/-! ## Pending versions -/

variable [DecidableEq κ]

/-- **Pushing** a pending version either reports a limit and changes nothing, or puts the change
at the head of row `k`'s list. -/
theorem PendingRep.push (h : PendingRep pool v pl) (k : κ) (maximum : ℕ) (change : PendingChange) :
    (∃ e, pushPendingVersion pool (v k) maximum change = some (.error e)) ∨
      ∃ pool' slot,
        pushPendingVersion pool (v k) maximum change =
          some
            (.ok (pool', { v k with tail := some slot, len := (v k).len + 1 },
              pool.nextIdentity + 1)) ∧ (v k).len < maximum ∧
          PendingRep pool' (update v k { v k with tail := some slot, len := (v k).len + 1 })
            (update pl k (⟨pool.nextIdentity + 1, change, false⟩ :: pl k)) := by
  obtain ⟨cells, free, howned, hread⟩ := h.chains
  by_cases hid : u64Max ≤ pool.nextIdentity
  · exact .inl ⟨_, by unfold pushPendingVersion; rw [if_pos hid]⟩
  by_cases hmax : maximum ≤ (v k).len
  · exact .inl ⟨_, by unfold pushPendingVersion; rw [if_neg hid, if_pos hmax]⟩
  rcases howned.allocate k ⟨pool.nextIdentity + 1, change, false⟩ with
    hfull | ⟨slot, q, free', halloc, howned', hnew, hfresh, hframe⟩
  · exact .inl ⟨_, by unfold pushPendingVersion; simp [hid, hmax, hfull]; rfl⟩
  right
  refine ⟨⟨q, pool.nextIdentity + 1⟩, slot, ?_, Nat.lt_of_not_le hmax,
    ⟨⟨update cells k (slot :: cells k), free', ?_, fun a => ?_⟩, fun a => ?_⟩⟩
  · unfold pushPendingVersion
    simp [hid, hmax, halloc]
  · convert howned' using 1
    funext a
    by_cases ha : a = k
    · subst ha; simp
    · simp [update_of_ne ha]
  · have hkeep : ∀ b, q.read (cells b) = pool.pool.read (cells b) := fun b =>
      read_congr fun j hj => hframe j fun hji => hfresh b (hji ▸ hj)
    by_cases ha : a = k
    · subst ha
      simp [read_cons hnew, hkeep, hread]
    · simp [update_of_ne ha, hkeep, hread]
  · by_cases ha : a = k
    · subst ha; simp [h.len]
    · simp [update_of_ne ha, h.len]

variable {k : κ} {x : PendingVersions} {slot : ℕ} {cells : HistoryOwner κ → List ℕ} {free : List ℕ}

lemma PendingRep.update_handle (h : PendingRep pool v pl) (htail : x.tail = (v k).tail)
    (hlen : x.len = (v k).len) :
    PendingRep pool (update v k x) pl := by
  obtain ⟨cells, free, howned, hread⟩ := h.chains
  have hsame : ∀ a, (update v k x a).tail = (v a).tail ∧ (update v k x a).len = (v a).len := by
    intro a
    by_cases ha : a = k
    · subst ha; simp [htail, hlen]
    · simp [update_of_ne ha]
  refine ⟨⟨cells, free, ?_, hread⟩, fun a => (hsame a).2.trans (h.len a)⟩
  convert howned using 2
  exact (hsame _).1

/-! ## Reserved history slots -/

omit [DecidableEq κ] in
lemma PendingHistory.slot?_eq_some {r : PendingHistory} :
    r.slot? = some slot ↔ r = .reserved slot := by
  cases r <;> simp [PendingHistory.slot?]

lemma historyTail_update_pending (k : κ) (x : PendingVersions) :
    historyTail hist (update v k x) =
      update (historyTail hist v) (.reserved k) x.historyReservation.slot? := by
  funext o
  cases o with
  | history a => simp [historyTail]
  | reserved a =>
    by_cases ha : a = k
    · subst ha; simp [historyTail]
    · simp [historyTail, ha]

lemma historyTail_update_history (k : κ) (x : CommittedHistory) :
    historyTail (update hist k x) v =
      update (historyTail hist v) (.history k) x.tail := by
  funext o
  cases o with
  | reserved a => simp [historyTail]
  | history a =>
    by_cases ha : a = k
    · subst ha; simp [historyTail]
    · simp [historyTail, ha]

section

variable (h : CommittedRep cpool hist v hl)
include h

/-- The committed side depends on the pending handles only through the reserved slot. -/
lemma CommittedRep.update_pending
    (hx : x.historyReservation.slot? = (v k).historyReservation.slot?) :
    CommittedRep cpool hist (update v k x) hl := by
  obtain ⟨cells, free, howned, hread⟩ := h.chains
  refine ⟨⟨cells, free, ?_, hread⟩, h.len, fun a slot ha => h.vacant a slot ?_⟩
  · rw [historyTail_update_pending, hx]
    have hsame : historyTail hist v (.reserved k) = (v k).historyReservation.slot? := rfl
    rwa [← hsame, update_eq_self]
  by_cases hak : a = k
  · subst hak
    rw [update_self, ← PendingHistory.slot?_eq_some, hx] at ha
    exact PendingHistory.slot?_eq_some.mp ha
  · rwa [update_of_ne hak] at ha

section

variable (hk : (v k).historyReservation = .reserved slot)
include hk

omit [DecidableEq κ] in
lemma CommittedRep.reserved_cells (howned : cpool.pool.Owned (historyTail hist v) cells free) :
    cells (.reserved k) = [slot] := by
  have hlink := howned.linked (.reserved k)
  have htail : historyTail hist v (.reserved k) = some slot := by
    simp [historyTail, hk, PendingHistory.slot?]
  rw [htail] at hlink
  exact hlink.unique (.cons (h.vacant k slot hk) .nil)

omit [DecidableEq κ] in
omit hk in
lemma CommittedRep.reserved_ne {a : κ} {i j : ℕ} (ha : (v a).historyReservation = .reserved i)
    (hk : (v k).historyReservation = .reserved j) (hak : a ≠ k) :
    i ≠ j := by
  obtain ⟨cells, free, howned, -⟩ := h.chains
  rintro rfl
  have hi : i ∈ cells (.reserved a) := by rw [h.reserved_cells ha howned]; simp
  have hj : i ∈ cells (.reserved k) := by rw [h.reserved_cells hk howned]; simp
  exact hak (by simpa using howned.unique hi hj)

/-- **Releasing a reservation** returns the slot to the free list. -/
theorem CommittedRep.releaseReserved (hx : x.historyReservation.slot? = none) :
    ∃ cpool', releaseReservedHistory cpool slot = some cpool' ∧
      CommittedRep cpool' hist (update v k x) hl := by
  obtain ⟨cells, free, howned, hread⟩ := h.chains
  have hs := h.vacant k slot hk
  obtain ⟨howned', hfloat⟩ := howned.unlinkHead (h.reserved_cells hk howned) hs
  obtain ⟨q, hq, hqowned, hframe, -⟩ := howned'.release hfloat hs id
  refine ⟨{ cpool with pool := q }, ?_, ⟨⟨update cells (.reserved k) [], slot :: free, ?_,
    fun a => ?_⟩, h.len, fun a i ha => ?_⟩⟩
  · simp [releaseReservedHistory, hs, hq]
  · rw [historyTail_update_pending, hx]
    exact hqowned
  · have hnot : slot ∉ cells (.history a) := by simpa using hfloat.1 (.history a)
    rw [← hread a]
    exact read_congr fun j hj => hframe j (ne_of_mem_of_not_mem hj hnot)
  by_cases hak : a = k
  · subst hak
    rw [update_self, ← PendingHistory.slot?_eq_some, hx] at ha
    cases ha
  · rw [update_of_ne hak] at ha
    rw [hframe i (h.reserved_ne ha hk hak)]
    exact h.vacant a i ha

omit hk in
/-- **Reserving** either reports exhaustion or gives row `k` a vacant slot of its own. -/
theorem CommittedRep.reserve (hk : (v k).historyReservation.slot? = none) :
    (∃ e, reserveHistorySlot cpool = some (.error e)) ∨
      ∃ cpool' slot, reserveHistorySlot cpool = some (.ok (cpool', slot)) ∧ CommittedRep cpool' hist
          (update v k { v k with historyReservation := .reserved slot }) hl := by
  obtain ⟨cells, free, howned, hread⟩ := h.chains
  have htail : historyTail hist v (.reserved k) = none := hk
  have halloc := howned.allocate (.reserved k) CommittedVersion.vacant
  rw [htail] at halloc
  rcases halloc with hfull | ⟨slot, q, free', hq, hqowned, hnew, hfresh, hframe⟩
  · exact .inl ⟨_, by simp [reserveHistorySlot, allocateCommittedSlot, hfull]; rfl⟩
  right
  refine ⟨{ cpool with pool := q }, slot, ?_,
    ⟨⟨update cells (.reserved k) (slot :: cells (.reserved k)), free', ?_,
      fun a => ?_⟩, h.len, fun a i ha => ?_⟩⟩
  · simp [reserveHistorySlot, allocateCommittedSlot, hq]
  · rw [historyTail_update_pending]
    exact hqowned
  · rw [← hread a]
    exact read_congr fun j hj => hframe j fun hji => hfresh _ (hji ▸ hj)
  by_cases hak : a = k
  · subst hak
    simp only [update_self, PendingHistory.reserved.injEq] at ha
    exact ha ▸ hnew
  rw [update_of_ne hak] at ha
  have hi : i ∈ cells (.reserved a) := by rw [h.reserved_cells ha howned]; simp
  rw [hframe i fun hij => hfresh _ (hij ▸ hi)]
  exact h.vacant a i ha

/-- **Publishing a reservation** makes the slot the newest entry of the row's history. -/
theorem CommittedRep.publishReserved {maximum : ℕ} (hlt : (hist k).len < maximum)
    (ver : CommittedVersion) (hx : x.historyReservation.slot? = none) :
    ∃ cpool', publishReservedHistory cpool (hist k) maximum slot ver =
        some (cpool', ⟨some slot, (hist k).len + 1⟩) ∧
      CommittedRep cpool' (update hist k ⟨some slot, (hist k).len + 1⟩)
        (update v k x) (update hl k (ver :: hl k)) := by
  obtain ⟨cells, free, howned, hread⟩ := h.chains
  have hs := h.vacant k slot hk
  have hin := (List.getElem?_eq_some_iff.mp hs).1
  obtain ⟨howned', hfloat⟩ := howned.unlinkHead (h.reserved_cells hk howned) hs
  -- the reserved cell is now on no chain: rewrite it, then link it in front of the history
  have hput := howned'.putFloating (s := ⟨true, (hist k).tail, ver⟩) hfloat
  have hget := put_get_self (p := cpool.pool) (s := ⟨true, (hist k).tail, ver⟩) hin
  have hlinked := hput.linkHead hfloat (k := .history k) hget (by simp [historyTail])
  have htails : historyTail (update hist k ⟨some slot, (hist k).len + 1⟩) (update v k x) =
      update (update (historyTail hist v) (.reserved k) none) (.history k) (some slot) := by
    rw [historyTail_update_history, historyTail_update_pending, hx]
  have hnot : ∀ a, slot ∉ cells (.history a) := fun a => by simpa using hfloat.1 (.history a)
  refine ⟨{ cpool with pool := cpool.pool.put slot ⟨true, (hist k).tail, ver⟩ }, ?_,
    ⟨⟨_, free, htails ▸ hlinked, fun a => ?_⟩, fun a => ?_, fun a i ha => ?_⟩⟩
  · simp [publishReservedHistory, hs, hlt]
  · by_cases ha : a = k
    · subst ha
      simp [read_cons hget, read_put (hnot _), hread]
    · simp [ha, read_put (hnot _), hread]
  · by_cases ha : a = k
    · subst ha; simp [h.len]
    · simp [ha, h.len]
  by_cases hak : a = k
  · subst hak
    rw [update_self, ← PendingHistory.slot?_eq_some, hx] at ha
    cases ha
  · rw [update_of_ne hak] at ha
    rw [put_get_ne (h.reserved_ne ha hk hak)]
    exact h.vacant a i ha

end

/-! ## Pruning -/

/-- Shorten row `k`'s history to its cells `keep` and release the rest: the one step every form of
pruning ends with. `q` is the array after the link of the last kept cell has been cleared. -/
lemma CommittedRep.dropTail {free : List ℕ}
    (howned : cpool.pool.Owned (historyTail hist v) cells free)
    (hread : ∀ k, cpool.pool.read (cells (.history k)) = hl k) {keep drop : List ℕ}
    (hk : cells (.history k) = keep ++ drop) {q : SlotPool CommittedVersion}
    (hqfree : q.free = cpool.pool.free)
    (hslots : ∀ j, j ∉ cells (.history k) → q.slots[j]? = cpool.pool.slots[j]?)
    (hvalues : ∀ j ∈ keep, q.slots[j]?.map Slot.value = cpool.pool.slots[j]?.map Slot.value)
    {t t' : Option ℕ} (hkeep : q.Linked t' keep) (hdrop : q.Linked t drop) :
    ∃ cpool' heapChanged, releaseCommittedChain { cpool with pool := q } t =
      some (cpool', heapChanged) ∧
      CommittedRep cpool' (update hist k ⟨t', keep.length⟩) v (update hl k (cpool.pool.read keep)) ∧
      Cut cpool.pool cpool'.pool (hist k).tail (cpool.pool.read keep) := by
  obtain ⟨hshort, hfloat⟩ := howned.shorten hk hqfree hslots hkeep
  obtain ⟨r, hr, hrowned, hrframe, -⟩ := hshort.releaseChain hdrop hfloat id
    (fun v => v.home.any RowHome.isHeap) hdrop.length_le false
  have hkeepdrop : ∀ j ∈ keep, j ∉ drop := by
    have hnodup := (howned.linked (.history k)).nodup
    rw [hk] at hnodup
    exact fun j hj hj' => (disjoint_of_nodup_append hnodup) hj hj'
  have hother : ∀ {o j}, o ≠ .history k → j ∈ cells o → r.slots[j]? = cpool.pool.slots[j]? := by
    intro o j ho hj
    have hjk : j ∉ cells (.history k) := fun hjk => ho (howned.unique hj hjk)
    rw [hrframe j fun hjd => hjk (hk ▸ mem_append_right _ hjd), hslots j hjk]
  have hrel : releaseCommittedChain { cpool with pool := q } t = some ({ cpool with pool := r },
        false || (q.read drop).any fun v => v.home.any RowHome.isHeap) := by
    simp only [releaseCommittedChain, hr, Option.bind_eq_bind, Option.bind_some]
  refine ⟨_, _, hrel, ⟨⟨update cells (.history k) keep, drop.reverse ++ free, ?_,
    fun a => ?_⟩, fun a => ?_, fun a i ha => ?_⟩, keep, drop, free,
    hk ▸ howned.linked (.history k), rfl, howned.linkedFree, hrowned.linkedFree,
    hrowned.linkedFree.nodup⟩
  · rw [historyTail_update_history]
    exact hrowned
  · by_cases ha : a = k
    · subst ha
      simp only [update_self]
      refine read_congr_value fun j hj => ?_
      rw [hrframe j (hkeepdrop j hj), hvalues j hj]
    have hne : HistoryOwner.history a ≠ .history k := by simpa using ha
    simp only [update_of_ne ha, update_of_ne hne]
    rw [← hread a]
    exact read_congr fun j hj => hother hne hj
  · by_cases ha : a = k
    · subst ha
      simp only [update_self]
      have hlen : (cpool.pool.read keep).length = (q.read keep).length := by
        rw [read_congr_value hvalues]
      rw [hlen, hkeep.length_read]
    · simp [update_of_ne ha, h.len]
  · have hi : i ∈ cells (.reserved a) := by rw [h.reserved_cells ha howned]; simp
    rw [hother (by simp) hi]
    exact h.vacant a i ha

/-- The walk of `prune_committed_chain`, entered with the cells `pre` behind it.
Induction on the cells ahead. -/
lemma CommittedRep.pruneWalk_spec {free : List ℕ}
    (howned : cpool.pool.Owned (historyTail hist v) cells free)
    (hread : ∀ k, cpool.pool.read (cells (.history k)) = hl k) {oldest : ℕ} {pre rest : List ℕ}
    {t : Option ℕ} (hcells : cells (.history k) = pre ++ rest)
    (hpre : ∀ x ∈ cpool.pool.read pre, decide (x.lsn ≤ oldest) = false)
    (hlink : cpool.pool.Linked t rest) {fuel : ℕ} (hfuel : rest.length ≤ fuel) :
    ∃ cpool' h' heapChanged, pruneWalk cpool (hist k) oldest fuel t pre.length =
        some (cpool', h', heapChanged) ∧
      CommittedRep cpool' (update hist k h') v (update hl k (prunedHistory (some oldest) (hl k))) ∧
      Cut cpool.pool cpool'.pool (hist k).tail (prunedHistory (some oldest) (hl k)) := by
  induction rest generalizing pre t fuel with
  | nil =>
    cases hlink
    refine ⟨cpool, hist k, false, by cases fuel <;> rfl, ?_⟩
    have hall : prunedHistory (some oldest) (hl k) = hl k := by
      have := keepThrough_append hpre []
      simpa [prunedHistory, ← hread k, hcells, keepThrough] using this
    rw [hall, update_eq_self, update_eq_self]
    refine ⟨h, cells (.history k), [], free, ?_, hread k, howned.linkedFree, howned.linkedFree,
      howned.linkedFree.nodup⟩
    rw [append_nil]
    exact howned.linked (.history k)
  | cons i rest ih =>
    obtain ⟨rfl, s, hs, hrest⟩ := hlink.of_cons
    obtain ⟨fuel, rfl⟩ : ∃ n, fuel = n + 1 := ⟨fuel - 1, by simp at hfuel; omega⟩
    by_cases hhit : s.value.lsn ≤ oldest
    · -- the oldest reader's entry: cut behind it
      have hwhole : cpool.pool.Linked (hist k).tail (pre ++ i :: rest) := by
        rw [← hcells]; exact howned.linked (.history k)
      have hmem : i ∈ cells (.history k) := by rw [hcells]; simp
      have hnot : i ∉ rest := (List.nodup_cons.mp hlink.nodup).1
      have hin := (List.getElem?_eq_some_iff.mp hs).1
      have hsplit : cells (.history k) = (pre ++ [i]) ++ rest := by simp [hcells]
      obtain ⟨cpool', heapChanged, hrel, hrep⟩ :=
        h.dropTail howned hread hsplit (q := cpool.pool.put i { s
        with previous :=
          none }) rfl (fun j hj => put_get_ne (ne_of_mem_of_not_mem hmem hj).symm) (fun j _
        => by
          by_cases hji : j = i
          · subst hji; simp [put_get_self hin, hs]
          · rw [put_get_ne hji])
        (hwhole.cut hs) (hrest.put hnot)
      have hpruned : prunedHistory (some oldest) (hl k) = cpool.pool.read (pre ++ [i]) := by
        rw [← hread k, hcells]
        simp [prunedHistory, keepThrough_append hpre, read_cons hs, keepThrough, hhit]
      rw [hpruned]
      refine ⟨cpool', { hist k with len := pre.length + 1 }, heapChanged, ?_, ?_⟩
      · simp [pruneWalk, hs, hhit, hrel]
      · simpa using hrep
    · have hpre' : ∀ x ∈ cpool.pool.read (pre ++ [i]), decide (x.lsn ≤ oldest) = false := by
        intro x hx
        rw [read_append, read_cons hs, mem_append] at hx
        rcases hx with hx | hx
        · exact hpre x hx
        · obtain rfl : x = s.value := by simpa using hx
          simpa using hhit
      have hsplit : cells (.history k) = (pre ++ [i]) ++ rest := by simp [hcells]
      have hfuel' : rest.length ≤ fuel := by simpa using hfuel
      obtain ⟨cpool', h', heapChanged, hwalk, hrep⟩ := ih hsplit hpre' hrest hfuel'
      refine ⟨cpool', h', heapChanged, ?_, hrep⟩
      simpa [pruneWalk, hs, hhit] using hwalk

/-- **Pruning** keeps exactly the history up to the oldest reader's entry. -/
theorem CommittedRep.prune (k : κ) (oldest : Option ℕ) :
    ∃ cpool' h' heapChanged,
      pruneCommittedChain cpool (hist k) oldest = some (cpool', h', heapChanged) ∧
        CommittedRep cpool' (update hist k h') v (update hl k (prunedHistory oldest (hl k))) ∧
        Cut cpool.pool cpool'.pool (hist k).tail (prunedHistory oldest (hl k)) := by
  obtain ⟨cells, free, howned, hread⟩ := h.chains
  have hlink : cpool.pool.Linked (hist k).tail (cells (.history k)) := howned.linked (.history k)
  cases oldest with
  | none =>
    have hsplit : cells (.history k) = [] ++ cells (.history k) := rfl
    obtain ⟨cpool', heapChanged, hrel, hrep⟩ := h.dropTail howned hread hsplit
      (q := cpool.pool) rfl (fun _ _ => rfl) (by simp) .nil hlink
    exact ⟨cpool', .empty, heapChanged, by simp [pruneCommittedChain, hrel],
      by simpa [prunedHistory, CommittedHistory.empty] using hrep⟩
  | some oldest =>
    have hsplit : cells (.history k) = [] ++ cells (.history k) := rfl
    exact h.pruneWalk_spec howned hread hsplit (by simp) hlink hlink.length_le

end

end Lists

/-! ## Operations on both arrays -/

section Both

variable {vs : RowVersionState} {hist : κ → CommittedHistory} {v : κ → PendingVersions}
  {hl : κ → List CommittedVersion} {pl : κ → List PendingEntry}

variable {k : κ} {e : PendingEntry} {rest : List PendingEntry}

lemma PendingRep.tail_none {pool : RowVersionPool PendingEntry} (h : PendingRep pool v pl)
    (hk : pl k = []) : (v k).tail = none := by
  obtain ⟨cells, free, howned, hread⟩ := h.chains
  have hlink := howned.linked k
  rcases htail : (v k).tail with _ | slot
  · rfl
  rw [htail] at hlink
  obtain ⟨s, rest, hs, hcells, -⟩ := Linked.cons_iff.mp hlink
  have hlist := hread k
  rw [hcells, read_cons hs, hk] at hlist
  cases hlist

lemma Rep.pop_nil (h : Rep vs hist v hl pl) (hk : pl k = []) :
    popPendingVersion vs (v k) = some (vs, v k, none) := by
  unfold popPendingVersion
  rw [h.pending.tail_none hk]

variable [DecidableEq κ]

lemma PendingRep.popHead {pool : RowVersionPool PendingEntry} (h : PendingRep pool v pl)
    {rest : List PendingEntry} (hk : pl k = e :: rest) (g : PendingEntry → PendingEntry) :
    ∃ slot s q, (v k).tail = some slot ∧ pool.pool.slots[slot]? = some s ∧ s.value = e ∧
      pool.pool.release g slot = some q ∧
      ∀ x : PendingVersions, x.tail = s.previous → x.len = rest.length →
        PendingRep { pool with pool := q } (update v k x) (update pl k rest) := by
  obtain ⟨cells, free, howned, hread⟩ := h.chains
  have hlink := howned.linked k
  rcases htail : (v k).tail with _ | slot
  · have hempty := hread k
    simp only [htail, Linked.none_iff] at hlink
    rw [hlink, hk] at hempty
    cases hempty
  simp only [htail] at hlink
  obtain ⟨s, cells', hs, hcells, hrest⟩ := Linked.cons_iff.mp hlink
  have hlist := hread k
  rw [hcells, read_cons hs, hk] at hlist
  obtain ⟨hvalue, hvalues⟩ := List.cons.inj hlist
  obtain ⟨howned', hfloat⟩ := howned.unlinkHead hcells hs
  obtain ⟨q, hq, hqowned, hframe, -⟩ := howned'.release hfloat hs g
  refine ⟨slot, s, q, rfl, hs, hvalue, hq, fun x hx hxlen =>
    ⟨⟨update cells k cells', slot :: free, ?_, fun a => ?_⟩, fun a => ?_⟩⟩
  · convert hqowned using 1
    funext a
    by_cases ha : a = k
    · subst ha; simp [hx]
    · simp [update_of_ne ha]
  · have hkeep : q.read (update cells k cells' a) = pool.pool.read (update cells k cells' a) :=
      read_congr fun j hj => hframe j (ne_of_mem_of_not_mem hj (hfloat.1 a))
    rw [hkeep]
    by_cases ha : a = k
    · subst ha; simpa using hvalues
    · simpa [update_of_ne ha] using hread a
  · by_cases ha : a = k
    · subst ha; simpa using hxlen
    · simp [update_of_ne ha, h.len]

/-- **Popping** removes the newest pending version; the last one takes the reserved history slot
with it. -/
theorem Rep.pop (h : Rep vs hist v hl pl) (hk : pl k = e :: rest) :
    ∃ vs' x, popPendingVersion vs (v k) = some (vs', x, some e.change) ∧
      Rep vs' hist (update v k x) hl (update pl k rest) ∧
      x.historyReservation = if rest = [] then .none else (v k).historyReservation := by
  obtain ⟨slot, s, q, htail, hs, rfl, hq, hrep⟩ :=
    h.pending.popHead hk (fun e => { e with keysPrepared := false })
  have hlen : (v k).len = rest.length + 1 := by rw [h.pending.len, hk]; rfl
  let vs' : RowVersionState := { vs with pendingRowVersions.pool := q }
  by_cases hrest : rest = []
  · subst hrest
    have hlen1 : (v k).len = 1 := hlen
    let x : PendingVersions := ⟨s.previous, 0, .none⟩
    have hpend := hrep x rfl rfl
    cases hres : (v k).historyReservation with
    | reserved r =>
      obtain ⟨cpool, hrel, hcomm⟩ := h.committed.releaseReserved hres (x := x) rfl
      refine ⟨{ vs' with committedRowVersions := cpool }, x, ?_, ⟨hcomm, hpend⟩,
        by simp [x]⟩
      simp [popPendingVersion, htail, hs, hq, hlen1, hres, hrel, vs', x]
    | none =>
      refine ⟨vs', x, ?_, ⟨h.committed.update_pending ?_, hpend⟩, by simp [x]⟩
      · simp [popPendingVersion, htail, hs, hq, hlen1, hres, vs', x]
      · rw [hres]
    | published =>
      refine ⟨vs', x, ?_, ⟨h.committed.update_pending ?_, hpend⟩, by simp [x]⟩
      · simp [popPendingVersion, htail, hs, hq, hlen1, hres, vs', x]
      · rw [hres]
        rfl
  · have hpos : rest.length ≠ 0 := by simpa using hrest
    refine ⟨vs', { v k with tail := s.previous, len := rest.length }, ?_,
      ⟨h.committed.update_pending rfl, hrep _ rfl rfl⟩, by simp [hrest]⟩
    simp [popPendingVersion, htail, hs, hq, hlen, hpos, vs']

/-- The loop of `clear_pending_versions`. Induction on the pending list. -/
lemma Rep.clearLoop (h : Rep vs hist v hl pl) (k : κ) {fuel : ℕ} (hfuel : (pl k).length < fuel)
    (hempty : pl k = [] → (v k).historyReservation = .none) :
    ∃ vs' x, clearPendingLoop fuel vs (v k) = some (vs', x) ∧
      Rep vs' hist (update v k x) hl (update pl k []) ∧
      x.historyReservation = .none := by
  rcases fuel with _ | fuel
  · omega
  generalize hlist : pl k = list at hfuel hempty
  induction list generalizing vs v pl fuel with
  | nil =>
    refine ⟨vs, v k, ?_, ?_, hempty rfl⟩
    · simp [clearPendingLoop, h.pop_nil hlist]
    · rw [← hlist, update_eq_self, update_eq_self]
      exact h
  | cons e rest ih =>
    obtain ⟨vs', x, hpop, hrep, hres⟩ := h.pop hlist
    obtain ⟨fuel, rfl⟩ : ∃ n, fuel = n + 1 := ⟨fuel - 1, by simp at hfuel; omega⟩
    obtain ⟨vs'', y, hloop, hrep', hy⟩ := ih hrep fuel (by simp)
      (by simpa using hfuel) (fun hr => by simpa [hr] using hres)
    simp only [update_idem] at hloop hrep'
    exact ⟨vs'', y, by rw [clearPendingLoop, hpop]; simpa using hloop, hrep', hy⟩

omit [DecidableEq κ] in
lemma PendingRep.length_le {pool : RowVersionPool PendingEntry} (h : PendingRep pool v pl)
    (k : κ) : (pl k).length ≤ pool.pool.slots.length := by
  obtain ⟨cells, free, howned, hread⟩ := h.chains
  rw [← hread k, (howned.linked k).length_read]
  exact (howned.linked k).length_le

/-- **Clearing** drops every pending version and the reservation. -/
theorem Rep.clear (h : Rep vs hist v hl pl) (k : κ)
    (hempty : pl k = [] → (v k).historyReservation = .none) :
    ∃ vs' x, clearPendingVersions vs (v k) = some (vs', x) ∧
      Rep vs' hist (update v k x) hl (update pl k []) ∧ x.historyReservation = .none :=
  h.clearLoop k (Nat.lt_succ_of_le (h.pending.length_le k)) hempty

omit [DecidableEq κ] in
lemma PendingRep.handle_empty {pool : RowVersionPool PendingEntry} (h : PendingRep pool v pl)
    (hk : pl k = []) (hres : (v k).historyReservation = .none) : v k = .empty := by
  have htail := h.tail_none hk
  have hlen := h.len k
  rcases hv : v k with ⟨tail, len, res⟩
  simp_all [PendingVersions.empty]

omit [DecidableEq κ] in
lemma CommittedRep.handle_empty {cpool : RowVersionPool CommittedVersion}
    (h : CommittedRep cpool hist v hl) (hk : hl k = []) : hist k = .empty := by
  obtain ⟨cells, free, howned, hread⟩ := h.chains
  have hlink : cpool.pool.Linked (hist k).tail (cells (.history k)) := howned.linked (.history k)
  have hlen := h.len k
  rw [hk] at hlen
  have hcells : cells (.history k) = [] := by
    have hlist := hlink.length_read
    rw [hread, hk] at hlist
    exact length_eq_zero_iff.mp hlist.symm
  rcases hh : hist k with ⟨tail, len⟩
  rw [hh, hcells] at hlink
  rw [hh] at hlen
  cases hlink
  have : len = 0 := hlen
  rw [this]
  rfl

/-- **Pruning a row's history**, stated for the row an operation holds. -/
theorem Rep.pruneHistory {row : RowState} (h : Rep vs (update hist k row.history) v hl pl)
    (oldest : Option ℕ) :
    ∃ vs' history, pruneCommittedHistory vs row oldest = some (vs', { row with history }) ∧
      Rep vs' (update hist k history) v
        (update hl k (prunedHistory (row.oldestNeeding oldest) (hl k))) pl ∧
      Cut vs.committedRowVersions.pool vs'.committedRowVersions.pool row.history.tail
        (prunedHistory (row.oldestNeeding oldest) (hl k)) := by
  obtain ⟨cpool, history, heapChanged, hprune, hrep, hcut⟩ :=
    h.committed.prune k (row.oldestNeeding oldest)
  rw [update_self] at hprune hcut
  rw [update_idem] at hrep
  refine ⟨{ vs with committedRowVersions := cpool }, history, ?_, ⟨hrep, h.pending⟩, hcut⟩
  simp [pruneCommittedHistory, hprune]

lemma PendingRep.freeze {pool : RowVersionPool PendingEntry} (h : PendingRep pool v pl)
    {rest : List PendingEntry} (hk : pl k = e :: rest) (e' : PendingEntry) :
    ∃ slot s, (v k).tail = some slot ∧ pool.pool.slots[slot]? = some s ∧ s.value = e ∧
      PendingRep { pool with pool := pool.pool.put slot { s with value := e' } } v
        (update pl k (e' :: rest)) := by
  obtain ⟨cells, free, howned, hread⟩ := h.chains
  have hlink := howned.linked k
  obtain ⟨slot, s, q, htail, hs, hvalue, -, -⟩ := h.popHead hk id
  simp only [htail] at hlink
  obtain ⟨s', cells', hs', hcells, hrest⟩ := Linked.cons_iff.mp hlink
  cases hs.symm.trans hs'
  have hin : slot < pool.pool.slots.length := (List.getElem?_eq_some_iff.mp hs).1
  have hnot : slot ∉ cells' := by
    have hnodup := hlink.nodup
    rw [hcells] at hnodup
    exact (nodup_cons.mp hnodup).1
  have hget := put_get_self (s := { s with value := e' }) hin
  -- only the payload of one cell changes, so every chain stays linked
  have hprev : ∀ j : ℕ, ((pool.pool.put slot { s with value := e' }).slots[j]?.map Slot.previous) =
      pool.pool.slots[j]?.map Slot.previous := by
    intro j
    by_cases hj : j = slot
    · subst hj; simp [hget, hs]
    · rw [put_get_ne hj]
  refine ⟨slot, s, htail, hs, hvalue, ⟨cells, free, ⟨fun a => (howned.linked a).frame
    fun j _ => hprev j, howned.linkedFree.frame fun j _ => hprev j, howned.unique, howned.apart⟩,
    fun a => ?_⟩, fun a => ?_⟩
  · by_cases ha : a = k
    · subst ha
      have hlist := hread a
      rw [hcells, read_cons hs, hk] at hlist
      simp only [update_self, hcells]
      rw [read_cons hget, read_put hnot, (List.cons.inj hlist).2]
    · have hnot' : slot ∉ cells a := fun hmem =>
        ha (howned.unique hmem (by rw [hcells]; simp))
      simp only [update_of_ne ha, read_put hnot', hread]
  · by_cases ha : a = k
    · subst ha; simp [h.len, hk]
    · simp [update_of_ne ha, h.len]

end Both

end Pos3ql
