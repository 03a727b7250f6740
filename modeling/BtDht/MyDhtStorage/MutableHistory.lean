import BtDht.MyDhtStorage.Immutable
import BtDht.MyDhtStorage.Polling

/-!
# BtDht.MyDhtStorage.MutableHistory

The mutable items of any run, with its evictions and ticks.  One call brings a
record under a target exactly if it is a put of that record that is newer than
what is there; and a record that is there survives a call exactly if the call is
no newer put to its target, no tick two hours after it was put, and does not
evict it (`lookup_call_mutable_iff`).

So what is answered about a target can be read off the calls
(`mutable_answers`).  In particular a put that is refused as stale does not
make the stored item any younger.
-/

namespace BtDht.MyDhtStorage

open MemoryDhtStorage

variable {s s' : MemoryDhtStorage} {ev : Event} {target : Sha1Hash}
  {rec : MutableItemRecord}

/-- The call puts an absent target into a store that already holds
`dht_max_dht_items` mutable items. -/
def EvictsMutable (s : MemoryDhtStorage) (ev : Event) : Prop :=
  ∃ target buf sig seq pk salt, ev.call = .putMutableItem target buf sig seq pk salt ∧
    target ∉ s.mMutableItems ∧ s.maxItems ≤ UnorderedMap.size s.mMutableItems

/-- The call puts the record, and what is there is older. -/
structure Puts (target : Sha1Hash) (rec : MutableItemRecord) (s : MemoryDhtStorage) (ev : Event) :
    Prop where
  call_eq : ev.call = .putMutableItem target rec.value rec.signature rec.sequence rec.publicKey
    rec.salt
  now_eq : ev.now = rec.seenAt
  newer : ∀ old, s.mMutableItems.lookup target = some old → old.sequence < rec.sequence

/-- The call leaves the record where it is. -/
structure Spares (target : Sha1Hash) (rec : MutableItemRecord) (s : MemoryDhtStorage) (ev : Event) :
    Prop where
  not_newer : ∀ buf sig seq pk salt, ev.call = .putMutableItem target buf sig seq pk salt →
    seq ≤ rec.sequence
  not_old : ev.call = .tick → ev.now - rec.seenAt ≤ hours 2
  not_evicted : EvictsMutable s ev → ev.first ≠ target

/-! ## one call -/

theorem not_stale_iff {seq : SequenceNumber} : ¬ s.stale target seq ↔
    ∀ old, s.mMutableItems.lookup target = some old → old.sequence < seq := by
  rw [stale]
  cases s.mMutableItems.lookup target with
  | none => simp
  | some old => simp [Int64.not_le]

section put

variable {target' : Sha1Hash} {buf : Bytes} {sig : Signature} {seq : SequenceNumber}
  {pk : PublicKey} {salt : Bytes}

/-- A put puts the record it is given, unless it is stale. -/
theorem puts_iff (hc : ev.call = .putMutableItem target' buf sig seq pk salt) :
    Puts target rec s ev ↔
      target' = target ∧ ¬ s.stale target' seq ∧ rec = ⟨buf, sig, seq, pk, salt, ev.now⟩ := by
  constructor
  · intro h
    have hcall := hc.symm.trans h.call_eq
    simp only [Call.putMutableItem.injEq] at hcall
    obtain ⟨rfl, rfl, rfl, rfl, rfl, rfl⟩ := hcall
    rw [h.now_eq]
    exact ⟨rfl, not_stale_iff.mpr h.newer, rfl⟩
  · intro h
    obtain ⟨rfl, hfresh, rfl⟩ := h
    exact ⟨hc, rfl, not_stale_iff.mp hfresh⟩

theorem evictsMutable_iff (hc : ev.call = .putMutableItem target' buf sig seq pk salt) :
    EvictsMutable s ev ↔
      target' ∉ s.mMutableItems ∧ s.maxItems ≤ UnorderedMap.size s.mMutableItems := by
  simp [EvictsMutable, hc]

theorem spares_put_iff (hc : ev.call = .putMutableItem target' buf sig seq pk salt) :
    Spares target rec s ev ↔
      (target' = target → seq ≤ rec.sequence) ∧ (EvictsMutable s ev → ev.first ≠ target) := by
  constructor
  · intro h
    exact ⟨fun heq => h.not_newer _ _ _ _ _ (heq ▸ hc), h.not_evicted⟩
  · intro h
    refine ⟨fun _ _ _ _ _ hc' => ?_, fun htick => ?_, h.2⟩
    · rw [hc] at hc'
      simp only [Call.putMutableItem.injEq] at hc'
      rw [← hc'.2.2.2.1]
      exact h.1 hc'.1
    · rw [hc] at htick
      contradiction

/-- A put to the target. -/
theorem lookup_put_self_iff (hc : ev.call = .putMutableItem target buf sig seq pk salt)
    (h : s.putMutableItem ev.now ev.first target buf sig seq pk salt = .ok s') :
    s'.mMutableItems.lookup target = some rec ↔
      Puts target rec s ev ∨ s.mMutableItems.lookup target = some rec ∧ Spares target rec s ev := by
  rw [puts_iff hc, spares_put_iff hc, evictsMutable_iff hc]
  by_cases hstale : s.stale target seq
  · obtain ⟨-, rfl⟩ | ⟨hfresh, -⟩ | ⟨hfresh, -⟩ := putMutableItem_cases h
    · have hkept : s'.mMutableItems.lookup target = some rec →
          seq ≤ rec.sequence ∧ target ∈ s'.mMutableItems := by
        intro hrec
        rw [stale, hrec] at hstale
        exact ⟨of_decide_eq_true hstale, UnorderedMap.mem_of_lookup hrec⟩
      grind
    · exact absurd hstale hfresh
    · exact absurd hstale hfresh
  · have hnew : s'.mMutableItems.lookup target = some ⟨buf, sig, seq, pk, salt, ev.now⟩ := by
      obtain ⟨hold, -⟩ | ⟨-, -, rfl⟩ | ⟨-, -, -, -, rfl⟩ := putMutableItem_cases h
      · exact absurd hold hstale
      · exact AList.lookup_insert _
      · exact AList.lookup_insert _
    have hlt : s.mMutableItems.lookup target = some rec → ¬ seq ≤ rec.sequence := by
      intro hrec
      exact Int64.not_le.mpr (not_stale_iff.mp hstale rec hrec)
    rw [hnew]
    grind

/-- A put to another target evicts the record or leaves it alone. -/
theorem lookup_put_other_iff (hc : ev.call = .putMutableItem target' buf sig seq pk salt)
    (hne : target' ≠ target)
    (h : s.putMutableItem ev.now ev.first target' buf sig seq pk salt = .ok s') :
    s'.mMutableItems.lookup target = some rec ↔
      Puts target rec s ev ∨ s.mMutableItems.lookup target = some rec ∧ Spares target rec s ev := by
  rw [puts_iff hc, spares_put_iff hc, evictsMutable_iff hc]
  obtain ⟨hstale, rfl⟩ | ⟨-, hroom, rfl⟩ | ⟨-, hnew, hfull, -, rfl⟩ := putMutableItem_cases h
  · have hin : target' ∈ s'.mMutableItems := by
      by_contra hout
      rw [stale, AList.lookup_eq_none.mpr hout] at hstale
      contradiction
    simp [hne, hin]
  · have hkept : ¬ (target' ∉ s.mMutableItems ∧ s.maxItems ≤ UnorderedMap.size s.mMutableItems) := by
      intro hev
      exact hroom.elim hev.1 (Nat.not_lt.mpr hev.2)
    simp [hne, hkept, AList.lookup_insert_ne hne.symm]
  · rw [AList.lookup_insert_ne hne.symm, UnorderedMap.lookup_erase_eq]
    grind

end put

/-- The step lemma. -/
theorem lookup_call_mutable_iff (h : s.call ev = .ok s') :
    s'.mMutableItems.lookup target = some rec ↔
      Puts target rec s ev ∨ s.mMutableItems.lookup target = some rec ∧ Spares target rec s ev := by
  obtain ⟨target', buf, sig, seq, pk, salt, hc, hput⟩ | ⟨hc, rfl⟩ | ⟨hput, htick, hsame⟩ :=
    call_mutable_cases h
  · by_cases ht : target' = target
    · subst ht
      exact lookup_put_self_iff hc hput
    · exact lookup_put_other_iff hc ht hput
  · have hputs : ¬ Puts target rec s ev := by
      intro hputs
      have hcall := hc.symm.trans hputs.call_eq
      contradiction
    have hspares : Spares target rec s ev ↔ ev.now - rec.seenAt ≤ hours 2 := by
      refine ⟨fun h => h.not_old hc, fun h => ⟨?_, fun _ => h, ?_⟩⟩ <;> simp [EvictsMutable, hc]
    rw [lookup_mutable_tick_eq_some_iff, hspares]
    exact (or_iff_right hputs).symm
  · have hputs : ¬ Puts target rec s ev := fun hputs => hput _ _ _ _ _ _ hputs.call_eq
    have hspares : Spares target rec s ev := by
      refine ⟨?_, fun hc => absurd hc htick, ?_⟩ <;> simp [EvictsMutable, hput]
    rw [hsame]
    simp [hputs, hspares]

/-! ## whole runs -/

/-- Some call of the run put the record, being newer than what was there, and
no call since then has been a newer put to the target, a tick more than two
hours after that put, or a put that evicted the target. -/
def Standing (settings : Settings) (hist : List Event) (target : Sha1Hash)
    (rec : MutableItemRecord) : Prop :=
  ∃ pre ev post, hist = pre ++ ev :: post ∧
    (∀ s₀, (system settings).Trace pre s₀ → Puts target rec s₀ ev) ∧
    ∀ mid ev' rest s₁, post = mid ++ ev' :: rest →
      (system settings).Trace (pre ++ ev :: mid) s₁ → Spares target rec s₁ ev'

/-- The run lemma. -/
theorem lookup_eq_some_iff_standing (settings : Settings) {hist : List Event}
    (ht : (system settings).Trace hist s) (target : Sha1Hash) (rec : MutableItemRecord) :
    s.mMutableItems.lookup target = some rec ↔ Standing settings hist target rec := by
  refine ht.since_iff (fun s => s.mMutableItems.lookup target = some rec) (Puts target rec)
    (Spares target rec) ?_ fun s ev s' _ _ hs => lookup_call_mutable_iff hs
  rw [show (system settings).init.mMutableItems = ∅ from rfl, AList.lookup_empty]
  simp

/-! ## what is answered -/

/-- The answer to a reader that knows `seq` tells of the record, and of nothing
else: its sequence always, and the rest of it if the reader asks for it or does
not know the sequence. -/
structure Tells (bdecode : Bytes → Option Entry) (rec : MutableItemRecord) (seq : SequenceNumber)
    (forceFill : Bool) (item answer : Item) : Prop where
  sequence : answer.lookup "seq" = some (.integer (sequenceToInt64 rec.sequence))
  filled : forceFill ∨ seq < rec.sequence →
    answer.lookup "v" = (bdecode rec.value).or (item.lookup "v") ∧
    answer.lookup "sig" = some (.string rec.signature.bytes) ∧
    answer.lookup "k" = some (.string rec.publicKey.bytes)
  unfilled : ¬ (forceFill ∨ seq < rec.sequence) →
    ∀ key ≠ "seq", answer.lookup key = item.lookup key

theorem getMutableItem_tells (bdecode : Bytes → Option Entry) (seq : SequenceNumber)
    (forceFill : Bool) (item : Item) (hrec : s.mMutableItems.lookup target = some rec) :
    ∃ answer, s.getMutableItem bdecode target seq forceFill item = (true, answer) ∧
      Tells bdecode rec seq forceFill item answer := by
  rw [getMutableItem, hrec]
  by_cases hfill : forceFill ∨ seq < rec.sequence
  · simp only [if_pos hfill]
    refine ⟨_, rfl, ?_, fun _ => ⟨?_, ?_, ?_⟩, fun hnot => absurd hfill hnot⟩
    · cases hv : bdecode rec.value with
      | none => simp [AList.lookup_insert_ne]
      | some decoded => simp [AList.lookup_insert_ne]
    · cases hv : bdecode rec.value with
      | none => simp [AList.lookup_insert_ne]
      | some decoded => simp [AList.lookup_insert_ne]
    · simp [AList.lookup_insert_ne]
    · simp
  · simp only [if_neg hfill]
    exact ⟨_, rfl, AList.lookup_insert _, fun h => absurd h hfill,
      fun _ key hkey => AList.lookup_insert_ne hkey⟩

/-- **What is answered about a target.**  After any run, with its evictions and
ticks, the calls alone decide it.  If a record stands under the target,
`get_mutable_item` tells of this one record, and so does `get_mutable_item_seq`;
no answer mixes two puts.  If none does, both answer `false` and write nothing. -/
theorem mutable_answers (settings : Settings) {hist : List Event} (ht : (system settings).Trace hist s)
    (bdecode : Bytes → Option Entry) (target : Sha1Hash) (seq : SequenceNumber) (forceFill : Bool)
    (item : Item) :
    (∀ rec, Standing settings hist target rec →
      (∃ answer, s.getMutableItem bdecode target seq forceFill item = (true, answer) ∧
        Tells bdecode rec seq forceFill item answer) ∧
      s.getMutableItemSeq target seq = (true, rec.sequence)) ∧
    ((¬ ∃ rec, Standing settings hist target rec) →
      s.getMutableItem bdecode target seq forceFill item = (false, item) ∧
      s.getMutableItemSeq target seq = (false, seq)) := by
  simp only [← lookup_eq_some_iff_standing settings ht]
  constructor
  · intro rec hrec
    exact ⟨getMutableItem_tells bdecode seq forceFill item hrec, by simp [getMutableItemSeq, hrec]⟩
  · intro hnone
    have hlookup : s.mMutableItems.lookup target = none :=
      Option.eq_none_iff_forall_ne_some.mpr fun rec hrec => hnone ⟨rec, hrec⟩
    simp [getMutableItem, getMutableItemSeq, hlookup]

/-- A put, an older one an hour later, and a tick. -/
def agingRun : List Event :=
  [(⟨digitPut (.fill 20 1) 5 1, 0, .fill 20 1⟩ : PutCall).event,
    (⟨digitPut (.fill 20 1) 3 2, hours 1, .fill 20 1⟩ : PutCall).event,
    ⟨hours 2, .fill 20 1, .tick⟩]

/-- The record of the first put. -/
def agedRecord : MutableItemRecord := ⟨[105, 49, 101], .fill 64 1, 5, .fill 32 1, [], 0⟩

def agedStore : MemoryDhtStorage :=
  { MemoryDhtStorage.ofSettings oneItem with
    mMutableItems := AList.singleton (.fill 20 1) agedRecord }

/-- The older put has not made the item younger, and a reader that knows its
sequence is given the digit of the first, with its signature and its key. -/
theorem mutable_answers_agedRecord :
    (system oneItem).Trace agingRun agedStore ∧
      ∃ answer, agedStore.getMutableItem digitDecode (.fill 20 1) 3 false ∅ = (true, answer) ∧
        answer.lookup "seq" = some (.integer 5) ∧ answer.lookup "v" = some (.integer 1) ∧
        answer.lookup "sig" = some (.string (List.replicate 64 1)) ∧
        answer.lookup "k" = some (.string (List.replicate 32 1)) := by
  have ht : (system oneItem).Trace agingRun agedStore := System.trace_of_run rfl
  have hrec : agedStore.mMutableItems.lookup (.fill 20 1) = some agedRecord := by decide
  have hstanding := (lookup_eq_some_iff_standing oneItem ht (.fill 20 1) agedRecord).mp hrec
  have hanswers := mutable_answers oneItem ht digitDecode (.fill 20 1) 3 false ∅
  obtain ⟨answer, hget, htells⟩ := (hanswers.1 _ hstanding).1
  obtain ⟨hv, hsig, hk⟩ := htells.filled (.inr (by decide))
  exact ⟨ht, answer, hget, htells.sequence, hv, hsig, hk⟩

end BtDht.MyDhtStorage
