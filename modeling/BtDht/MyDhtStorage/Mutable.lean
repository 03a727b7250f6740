import BtDht.Data.Newest
import BtDht.MyDhtStorage

/-!
# BtDht.MyDhtStorage.Mutable

The mutable items.  What the store has under a target is a cell that keeps the
newest put (`BtDht.Data.Newest`), as long as there is room for all targets: the
test of the sequence, the test of the capacity and the overwrite of
`put_mutable_item` are together one `Newest.write` (`putMutableItem_of_room`).
So the order in which puts arrive does not matter.
-/

namespace BtDht.MyDhtStorage

open MemoryDhtStorage

/-! ## what is stored under a target -/

/-- A record without the time at which it arrived. -/
structure MutableItem where
  value : Bytes
  signature : Signature
  sequence : SequenceNumber
  publicKey : PublicKey
  salt : Bytes
  deriving DecidableEq

def MutableItemRecord.item (r : MutableItemRecord) : MutableItem :=
  ⟨r.value, r.signature, r.sequence, r.publicKey, r.salt⟩

/-- What tells the newer item: its sequence. -/
def MutableItem.key (item : MutableItem) : Int := item.sequence.toInt

theorem MutableItem.key_le_iff {i j : MutableItem} : i.key ≤ j.key ↔ i.sequence ≤ j.sequence :=
  Int64.le_iff_toInt_le.symm

/-- The item stored under a target. -/
def MemoryDhtStorage.mutableItem (s : MemoryDhtStorage) (target : Sha1Hash) : Option MutableItem :=
  (s.mMutableItems.lookup target).map MutableItemRecord.item

theorem isSome_mutableItem_iff {s : MemoryDhtStorage} {target : Sha1Hash} :
    (s.mutableItem target).isSome ↔ target ∈ s.mMutableItems := by
  rw [mutableItem, Option.isSome_map, AList.lookup_isSome]

theorem getMutableItemSeq_eq (s : MemoryDhtStorage) (target : Sha1Hash) (seq : SequenceNumber) :
    s.getMutableItemSeq target seq = match s.mutableItem target with
      | none => (false, seq)
      | some item => (true, item.sequence) := by
  rw [getMutableItemSeq, mutableItem]
  cases s.mMutableItems.lookup target with
  | none => rfl
  | some r => rfl

/-! ## one put -/

/-- While its target is present or the table is not full, a put is defined and
writes the cell of its target, and no other. -/
theorem putMutableItem_of_room {s : MemoryDhtStorage} {target : Sha1Hash} (now : TimePoint)
    (first : Sha1Hash) (item : MutableItem)
    (hroom : target ∈ s.mMutableItems ∨ UnorderedMap.size s.mMutableItems < s.maxItems) :
    ∃ s', s.putMutableItem now first target item.value item.signature item.sequence
        item.publicKey item.salt = .ok s' ∧ s'.maxItems = s.maxItems ∧
      ∀ k, s'.mutableItem k =
        if k = target then Newest.write MutableItem.key (s.mutableItem k) item
        else s.mutableItem k := by
  have hfull : ¬ (UnorderedMap.size s.mMutableItems ≥ s.maxItems ∧ target ∉ s.mMutableItems) := by
    intro h
    cases hroom with
    | inl hin => exact h.2 hin
    | inr hlt => omega
  have hstale : s.stale target item.sequence = true ↔
      ∃ old, s.mutableItem target = some old ∧ item.key ≤ old.key := by
    rw [stale, mutableItem]
    cases s.mMutableItems.lookup target with
    | none => simp
    | some r => simp [MutableItem.key_le_iff, MutableItemRecord.item]
  rw [putMutableItem, if_neg hfull]
  by_cases hold : s.stale target item.sequence = true
  · rw [if_pos hold]
    obtain ⟨old, hcell, hle⟩ := hstale.mp hold
    refine ⟨s, rfl, rfl, fun k => ?_⟩
    by_cases hk : k = target
    · rw [if_pos hk, hk, hcell]
      exact (if_pos hle).symm
    · rw [if_neg hk]
  · rw [if_neg hold]
    refine ⟨_, rfl, rfl, fun k => ?_⟩
    by_cases hk : k = target
    · have hnew : Newest.write MutableItem.key (s.mutableItem target) item = some item := by
        cases hcell : s.mutableItem target with
        | none => rfl
        | some old => exact if_neg fun hle => hold (hstale.mpr ⟨old, hcell, hle⟩)
      rw [if_pos hk, hk, hnew]
      simp [mutableItem, MutableItemRecord.item]
    · rw [if_neg hk]
      simp [mutableItem, AList.lookup_insert_ne hk]

/-! ## runs of puts -/

/-- A put: what is put, and under which target. -/
structure MutablePut where
  target : Sha1Hash
  item : MutableItem
  deriving DecidableEq

/-- A put with the clock reading and the key of `begin()` it meets. -/
structure PutCall where
  put : MutablePut
  now : TimePoint
  first : Sha1Hash

def PutCall.event (c : PutCall) : Event where
  now := c.now
  first := c.first
  call := .putMutableItem c.put.target c.put.item.value c.put.item.signature c.put.item.sequence
    c.put.item.publicKey c.put.item.salt

/-- What is put under one target. -/
def itemsFor (target : Sha1Hash) (puts : List MutablePut) : List MutableItem :=
  (puts.filter fun p => p.target = target).map MutablePut.item

theorem mem_itemsFor {target : Sha1Hash} {puts : List MutablePut} {item : MutableItem} :
    item ∈ itemsFor target puts ↔ ⟨target, item⟩ ∈ puts := by
  simp only [itemsFor, List.mem_map, List.mem_filter, decide_eq_true_eq]
  constructor
  · intro h
    obtain ⟨p, ⟨hp, htarget⟩, hitem⟩ := h
    rwa [← htarget, ← hitem]
  · intro h
    exact ⟨⟨target, item⟩, ⟨h, rfl⟩, rfl⟩

/-- The sequences put under one target are distinct if they are so throughout. -/
theorem nodup_keys_itemsFor (target : Sha1Hash) {puts : List MutablePut}
    (hdistinct : puts.Pairwise fun p q => p.target = q.target → p.item.sequence ≠ q.item.sequence) :
    ((itemsFor target puts).map MutableItem.key).Nodup := by
  rw [List.Nodup, itemsFor, List.pairwise_map, List.pairwise_map]
  refine (hdistinct.filter _).imp_of_mem fun {p q} hp hq hne heq => ?_
  have hp' : p.target = target := of_decide_eq_true (List.mem_filter.mp hp).2
  have hq' : q.target = target := of_decide_eq_true (List.mem_filter.mp hq).2
  exact hne (hp'.trans hq'.symm) (Int64.toInt_inj.mp heq)

/-- The state after the puts `puts`: every cell holds the newest of its own. -/
structure HoldsNewest (settings : Settings) (puts : List MutablePut) (s : MemoryDhtStorage) :
    Prop where
  maxItems_eq : s.maxItems = sizeT settings.dhtMaxDhtItems.toInt
  cell : ∀ target, s.mutableItem target = Newest.content MutableItem.key (itemsFor target puts)

variable {settings : Settings} {puts done : List MutablePut} {s s' : MemoryDhtStorage}

theorem HoldsNewest.mem_iff (h : HoldsNewest settings done s) (target : Sha1Hash) :
    target ∈ s.mMutableItems ↔ target ∈ done.map MutablePut.target := by
  rw [← isSome_mutableItem_iff, h.cell, Option.isSome_iff_ne_none, ne_eq,
    Newest.content_eq_none_iff, itemsFor, List.map_eq_nil_iff, List.filter_eq_nil_iff]
  simp

/-- What a cell holds does not depend on the order of the puts. -/
theorem HoldsNewest.cell_of_perm (h : HoldsNewest settings done s) (hp : done.Perm puts)
    {target : Sha1Hash} (hkeys : ((itemsFor target puts).map MutableItem.key).Nodup) :
    s.mutableItem target = Newest.content MutableItem.key (itemsFor target puts) := by
  rw [h.cell]
  exact (Newest.content_perm hkeys ((hp.symm.filter _).map _)).symm

/-- The table has room for a further target among few. -/
theorem HoldsNewest.room (h : HoldsNewest settings done s)
    (hfew : ((puts.map MutablePut.target).eraseDups.length : Int) ≤ settings.dhtMaxDhtItems.toInt)
    (hdone : ∀ p ∈ done, p ∈ puts) {target : Sha1Hash} (ht : target ∈ puts.map MutablePut.target) :
    target ∈ s.mMutableItems ∨ UnorderedMap.size s.mMutableItems < s.maxItems := by
  by_cases hin : target ∈ s.mMutableItems
  · exact Or.inl hin
  · have hkeys : ∀ k ∈ s.mMutableItems, k ∈ (puts.map MutablePut.target).eraseDups := by
      intro k hk
      obtain ⟨p, hp, hpk⟩ := List.mem_map.mp ((h.mem_iff k).mp hk)
      exact List.mem_eraseDups.mpr (List.mem_map.mpr ⟨p, hdone p hp, hpk⟩)
    have hlt := UnorderedMap.size_lt_of_forall_mem hkeys (List.mem_eraseDups.mpr ht) hin
    rw [h.maxItems_eq, sizeT_toInt (by omega)]
    exact Or.inr (by omega)

/-- One more put. -/
theorem HoldsNewest.put (h : HoldsNewest settings done s)
    (hfew : ((puts.map MutablePut.target).eraseDups.length : Int) ≤ settings.dhtMaxDhtItems.toInt)
    (hdone : ∀ p ∈ done, p ∈ puts) (c : PutCall) (hc : c.put ∈ puts) :
    ∃ s', s.call c.event = .ok s' ∧ HoldsNewest settings (done ++ [c.put]) s' := by
  obtain ⟨s', hok, hmax, hcell⟩ := putMutableItem_of_room c.now c.first c.put.item
    (h.room hfew hdone (List.mem_map_of_mem hc))
  refine ⟨s', hok, hmax.trans h.maxItems_eq, fun target => ?_⟩
  rw [hcell, h.cell]
  by_cases ht : target = c.put.target
  · have hsnoc : itemsFor target (done ++ [c.put]) = itemsFor target done ++ [c.put.item] := by
      simp [itemsFor, ht]
    rw [if_pos ht, hsnoc, Newest.content_snoc]
  · have hsame : itemsFor target (done ++ [c.put]) = itemsFor target done := by
      simp [itemsFor, Ne.symm ht]
    rw [if_neg ht, hsame]

/-- The run lemma. -/
theorem holdsNewest_exec (calls : List PutCall)
    (hfew : ((puts.map MutablePut.target).eraseDups.length : Int) ≤ settings.dhtMaxDhtItems.toInt)
    (hcalls : ∀ c ∈ calls, c.put ∈ puts) :
    ∃ s, (system settings).exec (calls.map PutCall.event) = .ok s ∧
      HoldsNewest settings (calls.map PutCall.put) s := by
  induction calls using List.reverseRecOn with
  | nil => exact ⟨.ofSettings settings, rfl, rfl, fun _ => rfl⟩
  | append_singleton calls c ih =>
      obtain ⟨s, hs, h⟩ := ih fun c' hc' => hcalls c' (List.mem_append_left [c] hc')
      have hdone : ∀ p ∈ calls.map PutCall.put, p ∈ puts := by
        intro p hp
        obtain ⟨c', hc', rfl⟩ := List.mem_map.mp hp
        exact hcalls c' (List.mem_append_left [c] hc')
      obtain ⟨s', hs', h'⟩ := h.put hfew hdone c (hcalls c (by simp))
      refine ⟨s', ?_, by simpa using h'⟩
      rw [List.map_append, List.map_singleton, System.exec_snoc, hs]
      exact hs'

/-! ## convergence -/

/-- What holds all along a run of puts. -/
structure KeepsNewest (settings : Settings) (calls : List PutCall) : Prop where
  /-- what is stored is one of the puts so far -/
  whole : ∀ pre s target item, pre <+: calls →
    (system settings).exec (pre.map PutCall.event) = .ok s →
    s.mutableItem target = some item → ⟨target, item⟩ ∈ pre.map PutCall.put
  /-- what is stored is reported with its sequence -/
  reported : ∀ pre s target item seq, pre <+: calls →
    (system settings).exec (pre.map PutCall.event) = .ok s →
    s.mutableItem target = some item → s.getMutableItemSeq target seq = (true, item.sequence)
  /-- a sequence that is reported is never followed by a smaller one -/
  sequence_le : ∀ pre mid s s' target seq seq', pre ++ mid <+: calls →
    (system settings).exec (pre.map PutCall.event) = .ok s →
    (system settings).exec ((pre ++ mid).map PutCall.event) = .ok s' →
    (s.getMutableItemSeq target seq).1 = true →
      (s'.getMutableItemSeq target seq').1 = true ∧
        (s.getMutableItemSeq target seq).2 ≤ (s'.getMutableItemSeq target seq').2

theorem keepsNewest_of_few {calls : List PutCall}
    (hfew : ((puts.map MutablePut.target).eraseDups.length : Int) ≤ settings.dhtMaxDhtItems.toInt)
    (hcalls : ∀ c ∈ calls, c.put ∈ puts) : KeepsNewest settings calls := by
  have hstate : ∀ pre s, pre <+: calls → (system settings).exec (pre.map PutCall.event) = .ok s →
      HoldsNewest settings (pre.map PutCall.put) s := by
    intro pre s hp hs
    obtain ⟨s₀, hs₀, h⟩ := holdsNewest_exec pre hfew fun c hc => hcalls c (hp.subset hc)
    rw [hs] at hs₀
    rwa [Except.ok.inj hs₀]
  constructor
  · intro pre s target item hp hs hitem
    rw [(hstate pre s hp hs).cell] at hitem
    exact mem_itemsFor.mp (Newest.newest_of_content hitem).1
  · intro pre s target item seq _ _ hitem
    rw [getMutableItemSeq_eq, hitem]
  · intro pre mid s s' target seq seq' hp hs hs' hseq
    have hcell := (hstate pre s ((List.prefix_append pre mid).trans hp) hs).cell target
    have hcell' := (hstate (pre ++ mid) s' hp hs').cell target
    rw [itemsFor, List.map_append, List.filter_append, List.map_append, ← itemsFor,
      ← itemsFor] at hcell'
    rw [getMutableItemSeq_eq, hcell] at hseq
    rw [getMutableItemSeq_eq s, getMutableItemSeq_eq s', hcell, hcell']
    cases hc : Newest.content MutableItem.key (itemsFor target (pre.map PutCall.put)) with
    | none => simp [hc] at hseq
    | some item =>
        cases hc' : Newest.content MutableItem.key (itemsFor target (pre.map PutCall.put) ++
            itemsFor target (mid.map PutCall.put)) with
        | none =>
            have hnil := (List.append_eq_nil_iff.mp (Newest.content_eq_none_iff.mp hc')).1
            rw [hnil] at hc
            cases hc
        | some item' =>
            exact ⟨rfl, MutableItem.key_le_iff.mp (Newest.key_le_of_content_append hc hc')⟩

/-- **Mutable items converge.**  Two runs of the same puts, in any orders, are
defined and end with the same items: for every target the put with the largest
sequence.  Along each run the store holds whole puts only and the sequence of a
target never decreases. -/
theorem mutable_items_converge (settings : Settings) {puts : List MutablePut}
    (hdistinct : puts.Pairwise fun p q => p.target = q.target → p.item.sequence ≠ q.item.sequence)
    (hfew : ((puts.map MutablePut.target).eraseDups.length : Int) ≤ settings.dhtMaxDhtItems.toInt)
    {calls calls' : List PutCall} (hcalls : (calls.map PutCall.put).Perm puts)
    (hcalls' : (calls'.map PutCall.put).Perm puts) :
    ∃ s s', (system settings).exec (calls.map PutCall.event) = .ok s ∧
      (system settings).exec (calls'.map PutCall.event) = .ok s' ∧
      (∀ target, s.mutableItem target = s'.mutableItem target) ∧
      (∀ target item, s.mutableItem target = some item ↔ ⟨target, item⟩ ∈ puts ∧
        ∀ p ∈ puts, p.target = target → p.item.sequence ≤ item.sequence) ∧
      KeepsNewest settings calls ∧ KeepsNewest settings calls' := by
  have hmem : ∀ {calls : List PutCall}, (calls.map PutCall.put).Perm puts →
      ∀ c ∈ calls, c.put ∈ puts := fun hp c hc => hp.subset (List.mem_map_of_mem hc)
  have hkeys := fun target => nodup_keys_itemsFor target hdistinct
  obtain ⟨s, hs, h⟩ := holdsNewest_exec calls hfew (hmem hcalls)
  obtain ⟨s', hs', h'⟩ := holdsNewest_exec calls' hfew (hmem hcalls')
  refine ⟨s, s', hs, hs', fun target => ?_, fun target item => ?_,
    keepsNewest_of_few hfew (hmem hcalls), keepsNewest_of_few hfew (hmem hcalls')⟩
  · rw [h.cell_of_perm hcalls (hkeys target), h'.cell_of_perm hcalls' (hkeys target)]
  · rw [h.cell_of_perm hcalls (hkeys target), Newest.content_eq_some_iff (hkeys target), mem_itemsFor]
    apply and_congr_right
    intro _
    constructor
    · intro hmax p hp htarget
      exact MutableItem.key_le_iff.mp (hmax p.item (mem_itemsFor.mpr (htarget ▸ hp)))
    · intro hmax i hi
      exact MutableItem.key_le_iff.mpr (hmax ⟨target, i⟩ (mem_itemsFor.mp hi) rfl)

/-- A put whose value is the digit `n`. -/
def digitPut (target : Sha1Hash) (seq : SequenceNumber) (n : UInt8) : MutablePut :=
  ⟨target, [105, 48 + n, 101], .fill 64 n, seq, .fill 32 n, []⟩

/-- Two puts to one target, with a negative sequence among them, and one to
another target. -/
def threePuts : List MutablePut :=
  [digitPut (.fill 20 1) 5 1, digitPut (.fill 20 2) 0 2, digitPut (.fill 20 1) (-3) 3]

theorem mutable_items_converge_threePuts :
    ∃ s s', (system twoItems).exec
        ((threePuts.map fun p => ⟨p, 0, .fill 20 1⟩ : List PutCall).map PutCall.event) = .ok s ∧
      (system twoItems).exec
        ((threePuts.reverse.map fun p => ⟨p, 7, .fill 20 2⟩ : List PutCall).map PutCall.event) =
          .ok s' ∧
      (∀ target, s.mutableItem target = s'.mutableItem target) ∧
      s.mutableItem (.fill 20 1) = some (digitPut (.fill 20 1) 5 1).item := by
  have hcalls : (((threePuts.map fun p => ⟨p, 0, .fill 20 1⟩ : List PutCall)).map PutCall.put).Perm
      threePuts := .refl _
  have hcalls' : ((threePuts.reverse.map fun p => ⟨p, 7, .fill 20 2⟩ : List PutCall).map
      PutCall.put).Perm threePuts := List.reverse_perm threePuts
  obtain ⟨s, s', hs, hs', heq, hnewest, -, -⟩ :=
    mutable_items_converge twoItems (by decide) (by decide) hcalls hcalls'
  exact ⟨s, s', hs, hs', heq, (hnewest _ _).mpr (by decide)⟩

end BtDht.MyDhtStorage
