import BtDht.MyDhtStorage.Mutable
import Mathlib.Data.List.Infix

/-!
# BtDht.MyDhtStorage.Polling

A reader that polls one target.  Its first `get_mutable_item` forces a fill;
later ones pass on the sequence it was last given and are filled only when the
store has a larger one.  On the other side a put is accepted only when its
sequence is larger than the stored one.  So while the target stays in the
store, an equal sequence means the same record (`mutable_newer`), and a reader
that skips the unchanged ones misses nothing.
-/

namespace BtDht.MyDhtStorage

open MemoryDhtStorage

/-! ## a record changes with its sequence -/

theorem lookup_mutable_tick (s : MemoryDhtStorage) (now : TimePoint) (k : Sha1Hash) :
    (s.tick now).mMutableItems.lookup k = (s.mMutableItems.lookup k).bind fun rec =>
      if now - rec.seenAt > kItemTtl then none else some rec :=
  UnorderedMap.lookup_sweep _ s.mMutableItems k

/-- A tick keeps the records that are not older than two hours. -/
theorem lookup_mutable_tick_eq_some_iff {s : MemoryDhtStorage} {now : TimePoint} {k : Sha1Hash}
    {rec : MutableItemRecord} :
    (s.tick now).mMutableItems.lookup k = some rec ↔
      s.mMutableItems.lookup k = some rec ∧ now - rec.seenAt ≤ hours 2 := by
  rw [lookup_mutable_tick, Option.bind_eq_some_iff]
  constructor
  · rintro ⟨rec', hrec, hage⟩
    split at hage
    · cases hage
    · next hlive =>
        obtain rfl := Option.some.inj hage
        exact ⟨hrec, Int.not_lt.mp hlive⟩
  · rintro ⟨hrec, hage⟩
    exact ⟨rec, hrec, if_neg (Int.not_lt.mpr hage)⟩

/-- A record that is in the store before and after a call is the same, or has
been replaced by one with a larger sequence. -/
theorem mutable_newer {s s' : MemoryDhtStorage} {ev : Event} {target : Sha1Hash}
    {rec rec' : MutableItemRecord} (h : s.call ev = .ok s')
    (hrec : s.mMutableItems.lookup target = some rec)
    (hrec' : s'.mMutableItems.lookup target = some rec') :
    rec' = rec ∨ rec.sequence < rec'.sequence := by
  obtain ⟨target', buf, sig, seq, pk, salt, -, hput⟩ | ⟨-, rfl⟩ | ⟨-, -, hsame⟩ :=
    call_mutable_cases h
  · obtain ⟨-, rfl⟩ | ⟨hstale, -, rfl⟩ | ⟨-, hnew, -, -, rfl⟩ := putMutableItem_cases hput
    · rw [hrec] at hrec'
      exact Or.inl (Option.some.inj hrec').symm
    · by_cases ht : target = target'
      · -- the put has been accepted
        subst ht
        simp only [AList.lookup_insert] at hrec'
        rw [stale, hrec, decide_eq_true_iff, Int64.not_le] at hstale
        rw [← Option.some.inj hrec']
        exact Or.inr hstale
      · simp only [AList.lookup_insert_ne ht] at hrec'
        rw [hrec] at hrec'
        exact Or.inl (Option.some.inj hrec').symm
    · have ht : target ≠ target' := fun heq => hnew (heq ▸ UnorderedMap.mem_of_lookup hrec)
      simp only [AList.lookup_insert_ne ht, UnorderedMap.lookup_erase_eq] at hrec'
      split at hrec'
      · cases hrec'
      · rw [hrec] at hrec'
        exact Or.inl (Option.some.inj hrec').symm
  · have hkept := (lookup_mutable_tick_eq_some_iff.mp hrec').1
    exact Or.inl (Option.some.inj (hkept.symm.trans hrec))
  · rw [hsame, hrec] at hrec'
    exact Or.inl (Option.some.inj hrec').symm

/-! ## the reader -/

/-- What a reader has been given so far. -/
structure Reader where
  seq : Option SequenceNumber
  v : Option Entry
  sig : Option Entry
  k : Option Entry

/-- A reader before its first poll. -/
def Reader.new : Reader := ⟨none, none, none, none⟩

/-- The reader knows the record, whose buffer decodes to `v`. -/
def Reader.knowing (rec : MutableItemRecord) (v : Entry) : Reader :=
  ⟨some rec.sequence, some v, some (.string rec.signature.bytes), some (.string rec.publicKey.bytes)⟩

/-- The call the reader makes and its answer: forced at first, with the last
sequence afterwards.  `seq₀` is what the first call passes as `seq`. -/
def Reader.answer (bdecode : Bytes → Option Entry) (target : Sha1Hash) (seq₀ : SequenceNumber)
    (s : MemoryDhtStorage) (r : Reader) : Bool × Item :=
  match r.seq with
  | none => s.getMutableItem bdecode target seq₀ true ∅
  | some seq => s.getMutableItem bdecode target seq false ∅

/-- The reader takes over what the answer carries. -/
def Reader.take (r : Reader) (item : Item) : Reader where
  seq := match item.lookup "seq" with
    | some (.integer seq) => some seq
    | _ => r.seq
  v := (item.lookup "v").or r.v
  sig := (item.lookup "sig").or r.sig
  k := (item.lookup "k").or r.k

/-- The answer carries a record. -/
def Carries (item : Item) : Prop := "v" ∈ item ∧ "sig" ∈ item ∧ "k" ∈ item

/-- The answer carries nothing of a record but its sequence. -/
def CarriesNone (item : Item) : Prop := "v" ∉ item ∧ "sig" ∉ item ∧ "k" ∉ item

/-- The answer that tells the sequence only. -/
def seqItem (rec : MutableItemRecord) : Item :=
  AList.insert "seq" (.integer (sequenceToInt64 rec.sequence)) ∅

/-- The answer that is filled. -/
def fullItem (rec : MutableItemRecord) (v : Entry) : Item :=
  (((seqItem rec).insert "v" v).insert "sig" (.string rec.signature.bytes)).insert "k"
    (.string rec.publicKey.bytes)

theorem mem_seqItem {rec : MutableItemRecord} {key : String} : key ∈ seqItem rec ↔ key = "seq" := by
  simp only [seqItem, AList.mem_insert, AList.notMem_empty, or_false]

theorem lookup_seqItem (rec : MutableItemRecord) (key : String) :
    (seqItem rec).lookup key =
      if key = "seq" then some (.integer (sequenceToInt64 rec.sequence)) else none := by
  by_cases h : key = "seq"
  · rw [if_pos h, h]
    exact AList.lookup_insert _
  · rw [if_neg h]
    exact (AList.lookup_insert_ne h).trans (AList.lookup_empty key)

theorem carries_fullItem (rec : MutableItemRecord) (v : Entry) : Carries (fullItem rec v) := by
  simp [Carries, fullItem, AList.mem_insert]

theorem carriesNone_seqItem (rec : MutableItemRecord) : CarriesNone (seqItem rec) := by
  simp [CarriesNone, mem_seqItem]

theorem Reader.take_fullItem (r : Reader) (rec : MutableItemRecord) (v : Entry) :
    r.take (fullItem rec v) = knowing rec v := by
  simp [take, fullItem, lookup_seqItem, knowing, sequenceToInt64, AList.lookup_insert_ne]

/-- A reader that knows the record already is told its sequence again. -/
theorem Reader.take_seqItem (rec : MutableItemRecord) (v : Entry) :
    (knowing rec v).take (seqItem rec) = knowing rec v := by
  simp [take, lookup_seqItem, knowing, sequenceToInt64]

section answer

variable {bdecode : Bytes → Option Entry} {target : Sha1Hash} {seq₀ : SequenceNumber}
  {s : MemoryDhtStorage} {rec rec₀ : MutableItemRecord} {v v₀ : Entry}

/-- The first answer is filled. -/
theorem Reader.answer_new (hrec : s.mMutableItems.lookup target = some rec)
    (hv : bdecode rec.value = some v) :
    Reader.new.answer bdecode target seq₀ s = (true, fullItem rec v) := by
  simp [answer, Reader.new, getMutableItem, hrec, hv, fullItem, seqItem]

/-- A later answer is filled if the store has a larger sequence. -/
theorem Reader.answer_knowing (hrec : s.mMutableItems.lookup target = some rec)
    (hv : bdecode rec.value = some v) :
    (knowing rec₀ v₀).answer bdecode target seq₀ s =
      (true, if rec₀.sequence < rec.sequence then fullItem rec v else seqItem rec) := by
  by_cases hlt : rec₀.sequence < rec.sequence
  · simp [answer, knowing, getMutableItem, hrec, hv, fullItem, seqItem, hlt]
  · simp [answer, knowing, getMutableItem, hrec, seqItem, hlt]

end answer

/-! ## writers and one reader -/

/-- A call of anyone, or a poll of the reader. -/
inductive PollEvent
  | call (ev : Event)
  | poll

structure Polling where
  store : MemoryDhtStorage
  reader : Reader

/-- Calls and polls in any order, from the store `s₀` on. -/
def polling (bdecode : Bytes → Option Entry) (target : Sha1Hash) (seq₀ : SequenceNumber)
    (s₀ : MemoryDhtStorage) : System Polling PollEvent UndefinedBehavior where
  init := ⟨s₀, .new⟩
  allowed p e := match e with
    | .call ev => p.store.Admits ev
    | .poll => True
  step p e := match e with
    | .call ev => (p.store.call ev).map fun store => { p with store := store }
    | .poll => .ok { p with reader := p.reader.take (p.reader.answer bdecode target seq₀ p.store).2 }

/-- The target is stored with a buffer that decodes. -/
def Polling.Stored (bdecode : Bytes → Option Entry) (target : Sha1Hash) (p : Polling)
    (rec : MutableItemRecord) (v : Entry) : Prop :=
  p.store.mMutableItems.lookup target = some rec ∧ bdecode rec.value = some v

section run

variable {bdecode : Bytes → Option Entry} {target : Sha1Hash} {seq₀ : SequenceNumber}
  {s₀ : MemoryDhtStorage} {p p' : Polling} {rec rec₀ : MutableItemRecord} {v v₀ : Entry}

/-- The reader knows a record that is the stored one or older. -/
def Behind (rec₀ : MutableItemRecord) (v₀ : Entry) (target : Sha1Hash) (p : Polling) : Prop :=
  p.reader = .knowing rec₀ v₀ ∧ ∀ rec, p.store.mMutableItems.lookup target = some rec →
    rec = rec₀ ∨ rec₀.sequence < rec.sequence

/-- A call leaves the reader as it is. -/
theorem polling_call {ev : Event}
    (hs : (polling bdecode target seq₀ s₀).step p (.call ev) = .ok p') :
    p.store.call ev = .ok p'.store ∧ p'.reader = p.reader := by
  cases hcall : p.store.call ev with
  | error ub => simp [polling, hcall, Except.map] at hs
  | ok store =>
      simp only [polling, hcall, Except.map, Except.ok.injEq] at hs
      rw [← hs]
      exact ⟨rfl, rfl⟩

/-- A call makes the stored record newer if it changes it. -/
theorem Behind.call {ev : Event} (h : Behind rec₀ v₀ target p)
    (hstored : p.Stored bdecode target rec v)
    (hs : (polling bdecode target seq₀ s₀).step p (.call ev) = .ok p') :
    Behind rec₀ v₀ target p' := by
  obtain ⟨hcall, hreader⟩ := polling_call hs
  refine ⟨hreader.trans h.1, fun rec' hrec' => ?_⟩
  cases mutable_newer hcall hstored.1 hrec' with
  | inl heq => exact heq ▸ h.2 rec hstored.1
  | inr hlt =>
      cases h.2 rec hstored.1 with
      | inl heq => exact Or.inr (heq ▸ hlt)
      | inr hlt' => exact Or.inr (Int64.lt_trans hlt' hlt)

/-- What a reader is given depends on what it knows. -/
def Follows (bdecode : Bytes → Option Entry) (target : Sha1Hash) (p : Polling) : Prop :=
  p.reader = .new ∨ ∃ rec₀ v₀, bdecode rec₀.value = some v₀ ∧ Behind rec₀ v₀ target p

/-- After a poll the reader knows the stored record. -/
theorem Follows.poll (h : Follows bdecode target p) (seq₀ : SequenceNumber)
    (hstored : p.Stored bdecode target rec v) :
    (p.reader.answer bdecode target seq₀ p.store).1 = true ∧
      p.reader.take (p.reader.answer bdecode target seq₀ p.store).2 = .knowing rec v := by
  obtain ⟨hrec, hv⟩ := hstored
  cases h with
  | inl hnew =>
      rw [hnew, Reader.answer_new hrec hv]
      exact ⟨rfl, Reader.take_fullItem _ rec v⟩
  | inr hbehind =>
      obtain ⟨rec₀, v₀, hv₀, hr, hnewer⟩ := hbehind
      rw [hr, Reader.answer_knowing hrec hv]
      cases hnewer rec hrec with
      | inl heq =>
          subst heq
          obtain rfl : v₀ = v := Option.some.inj (hv₀.symm.trans hv)
          rw [if_neg Int64.lt_irrefl]
          exact ⟨rfl, Reader.take_seqItem rec v₀⟩
      | inr hlt =>
          rw [if_pos hlt]
          exact ⟨rfl, Reader.take_fullItem _ rec v⟩

/-- The state after a poll. -/
theorem Follows.behind_poll (h : Follows bdecode target p) (hstored : p.Stored bdecode target rec v)
    (hs : (polling bdecode target seq₀ s₀).step p .poll = .ok p') : Behind rec v target p' := by
  have heq : { p with reader := p.reader.take (p.reader.answer bdecode target seq₀ p.store).2 } = p' :=
    Except.ok.inj hs
  rw [← heq]
  refine ⟨(h.poll seq₀ hstored).2, fun rec' hrec' => Or.inl ?_⟩
  exact Option.some.inj (hrec'.symm.trans hstored.1)

variable {hist : List PollEvent}

/-- The reader follows the store all along a run in which the target stays. -/
theorem follows_of_trace (ht : (polling bdecode target seq₀ s₀).Trace hist p)
    (hstored : ∀ pre p', pre <+: hist → (polling bdecode target seq₀ s₀).Trace pre p' →
      ∃ rec v, p'.Stored bdecode target rec v) :
    Follows bdecode target p := by
  induction ht with
  | nil => exact Or.inl rfl
  | @snoc hist p p' e ht ha hs ih =>
      have hprev := ih fun pre p₀ hp => hstored pre p₀ (hp.trans (List.prefix_append hist [e]))
      obtain ⟨rec, v, hst⟩ := hstored hist p (List.prefix_append hist [e]) ht
      cases e with
      | call ev =>
          cases hprev with
          | inl hnew => exact Or.inl ((polling_call hs).2.trans hnew)
          | inr hbehind =>
              obtain ⟨rec₀, v₀, hv₀, hb⟩ := hbehind
              exact Or.inr ⟨rec₀, v₀, hv₀, hb.call hst hs⟩
      | poll => exact Or.inr ⟨rec, v, hst.2, hprev.behind_poll hst hs⟩

/-- Before its first poll the reader is as it was. -/
theorem reader_of_trace (ht : (polling bdecode target seq₀ s₀).Trace hist p)
    (hnone : PollEvent.poll ∉ hist) : p.reader = .new := by
  induction ht with
  | nil => rfl
  | @snoc hist p p' e ht ha hs ih =>
      rw [List.mem_append, not_or] at hnone
      cases e with
      | call ev => exact (polling_call hs).2.trans (ih hnone.1)
      | poll => exact absurd (List.mem_singleton_self _) hnone.2

/-- Until its next poll the reader is behind the record it was given last. -/
theorem behind_of_trace {h₁ h₂ : List PollEvent} {p₁ : Polling}
    (hstored : ∀ pre p', pre <+: h₁ ++ .poll :: h₂ →
      (polling bdecode target seq₀ s₀).Trace pre p' → ∃ rec v, p'.Stored bdecode target rec v)
    (ht₁ : (polling bdecode target seq₀ s₀).Trace h₁ p₁) (hst₁ : p₁.Stored bdecode target rec v)
    (hnone : PollEvent.poll ∉ h₂)
    (ht : (polling bdecode target seq₀ s₀).Trace (h₁ ++ .poll :: h₂) p) :
    Behind rec v target p := by
  have hfollows := follows_of_trace ht₁ fun pre p' hp =>
    hstored pre p' (hp.trans (List.prefix_append h₁ _))
  obtain ⟨p₀, p₂, ht₀, -, hs, ht₂⟩ := ht.split
  rw [ht₀.functional ht₁] at hs
  rw [List.append_cons] at ht hstored
  refine ht₂.between (Behind rec v target) (hfollows.behind_poll hst₁ hs) ?_ ht
  intro mid e q q' hmid hq hb hs
  have hpre : h₁ ++ [PollEvent.poll] ++ mid <+: h₁ ++ [PollEvent.poll] ++ h₂ :=
    (List.prefix_append_right_inj _).mpr ((List.prefix_append mid [e]).trans hmid)
  obtain ⟨rec', v', hst⟩ := hstored _ q hpre hq
  cases e with
  | call ev => exact hb.call hst hs
  | poll => exact absurd (hmid.subset (by simp)) hnone

end run

/-- **A polling reader never keeps a stale item.**  In any run of calls and
polls in which the target stays in the store and its buffer decodes, the next
poll is answered with `true`.  Its answer is filled at the first poll, and later
exactly if the record has changed since the previous one; and with it the
reader knows the stored record. -/
theorem polling_reader_never_stale (bdecode : Bytes → Option Entry) (target : Sha1Hash)
    (seq₀ : SequenceNumber) (s₀ : MemoryDhtStorage) {hist : List PollEvent} {p : Polling}
    (ht : (polling bdecode target seq₀ s₀).Trace hist p)
    (hstored : ∀ pre p', pre <+: hist → (polling bdecode target seq₀ s₀).Trace pre p' →
      ∃ rec v, p'.Stored bdecode target rec v) :
    ∃ rec v item, p.Stored bdecode target rec v ∧
      p.reader.answer bdecode target seq₀ p.store = (true, item) ∧
      (PollEvent.poll ∉ hist → Carries item) ∧
      (∀ h₁ h₂ p₁, hist = h₁ ++ .poll :: h₂ → PollEvent.poll ∉ h₂ →
        (polling bdecode target seq₀ s₀).Trace h₁ p₁ →
        (p₁.store.mMutableItems.lookup target ≠ some rec → Carries item) ∧
          (p₁.store.mMutableItems.lookup target = some rec → CarriesNone item)) ∧
      p.reader.take item = ⟨some rec.sequence, some v, some (.string rec.signature.bytes),
        some (.string rec.publicKey.bytes)⟩ := by
  obtain ⟨rec, v, hst⟩ := hstored hist p List.prefix_rfl ht
  obtain ⟨htrue, htake⟩ := (follows_of_trace ht hstored).poll seq₀ hst
  refine ⟨rec, v, _, hst, Prod.ext htrue rfl, fun hnone => ?_, fun h₁ h₂ p₁ hh hnone ht₁ => ?_, htake⟩
  · rw [reader_of_trace ht hnone, Reader.answer_new hst.1 hst.2]
    exact carries_fullItem rec v
  · subst hh
    obtain ⟨rec₁, v₁, hst₁⟩ := hstored h₁ p₁ (List.prefix_append h₁ _) ht₁
    obtain ⟨hreader, hnewer⟩ := behind_of_trace hstored ht₁ hst₁ hnone ht
    rw [hreader, Reader.answer_knowing hst.1 hst.2, hst₁.1]
    cases hnewer rec hst.1 with
    | inl heq =>
        rw [heq, if_neg Int64.lt_irrefl]
        exact ⟨fun hne => absurd rfl hne, fun _ => carriesNone_seqItem rec₁⟩
    | inr hlt =>
        rw [if_pos hlt]
        refine ⟨fun _ => carries_fullItem rec v, fun heq => ?_⟩
        rw [Option.some.inj heq] at hlt
        exact absurd hlt Int64.lt_irrefl

/-- A store that holds the digit 1 under the sequence 5. -/
def digitStored : MemoryDhtStorage :=
  { MemoryDhtStorage.ofSettings twoItems with
    mMutableItems := AList.singleton (.fill 20 1)
      ⟨[105, 49, 101], .fill 64 1, 5, .fill 32 1, [], 0⟩ }

/-- A put of the digit 2 under the sequence 7. -/
def digitTwo : PutCall := ⟨digitPut (.fill 20 1) 7 2, 1, .fill 20 1⟩

/-- The same store with the digit 2. -/
def digitReplaced : MemoryDhtStorage :=
  { MemoryDhtStorage.ofSettings twoItems with
    mMutableItems := AList.singleton (.fill 20 1)
      ⟨[105, 50, 101], .fill 64 2, 7, .fill 32 2, [], 1⟩ }

/-- A reader that has seen the digit 1 is given the digit 2. -/
theorem polling_reader_never_stale_digits :
    ∃ p item, (polling digitDecode (.fill 20 1) 0 digitStored).Trace
        [.poll, .call digitTwo.event] p ∧
      p.reader.answer digitDecode (.fill 20 1) 0 p.store = (true, item) ∧ Carries item ∧
      p.reader.take item = ⟨some 7, some (.integer 2), some (.string (List.replicate 64 2)),
        some (.string (List.replicate 32 2))⟩ := by
  let S := polling digitDecode (.fill 20 1) 0 digitStored
  have ht₀ : S.Trace [] ⟨digitStored, .new⟩ := .nil
  have ht₁ : S.Trace [.poll] ⟨digitStored, _⟩ := ht₀.snoc trivial rfl
  have ht : S.Trace [.poll, .call digitTwo.event] ⟨digitReplaced, _⟩ :=
    ht₁.snoc (show digitStored.Admits digitTwo.event by decide) rfl
  have hstored : ∀ pre p', pre <+: [.poll, .call digitTwo.event] → S.Trace pre p' →
      ∃ rec v, p'.Stored digitDecode (.fill 20 1) rec v := by
    intro pre p' hpre ht'
    rw [← List.mem_inits] at hpre
    simp only [List.inits, List.map_cons, List.map_nil, List.mem_cons, List.not_mem_nil,
      or_false] at hpre
    obtain rfl | rfl | rfl := hpre
    · rw [ht'.functional ht₀]
      exact ⟨_, _, rfl, rfl⟩
    · rw [ht'.functional ht₁]
      exact ⟨_, _, rfl, rfl⟩
    · rw [ht'.functional ht]
      exact ⟨_, _, rfl, rfl⟩
  obtain ⟨rec, v, item, ⟨hrec, hv⟩, hanswer, -, hchange, htake⟩ :=
    polling_reader_never_stale digitDecode (.fill 20 1) 0 digitStored ht hstored
  obtain rfl : _ = rec := Option.some.inj hrec
  obtain rfl : _ = v := Option.some.inj hv
  have hcarries := (hchange [] [.call digitTwo.event] _ rfl (by simp) ht₀).1 (by decide)
  exact ⟨_, item, ht, hanswer, hcarries, htake⟩

end BtDht.MyDhtStorage
