import BtDht.MyDhtStorage.Immutable

/-!
# BtDht.MyDhtStorage.Expiry

The life of an immutable item.  What decides on its expiry is its entry in
`m_immutable_seen`, and an eviction leaves the entry of its victim behind.  That
does no harm: a target that is put again is given a new arrival time before
anything reads the old one.

A stay of a target is a stretch of the run in which it is present.  The put
that begins the stay settles the bytes and the arrival time (`arrived_begin`)
and nothing changes them before it ends (`Arrived.keep`).
-/

namespace BtDht.MyDhtStorage

open MemoryDhtStorage

/-- The target is stored as `ev` has put it, with the time of `ev`. -/
def Arrived (target : Sha1Hash) (ev : Event) (s : MemoryDhtStorage) : Prop :=
  ∃ buf, ev.call = .putImmutableItem target buf ∧ s.mImmutableItems.lookup target = some buf ∧
    s.mImmutableSeen.lookup target = some ev.now

section

variable {s s' : MemoryDhtStorage} {target : Sha1Hash} {ev ev₀ : Event}

/-- A call that makes a target present is a put of it, and overwrites whatever
arrival time an earlier stay has left. -/
theorem arrived_begin (hnew : target ∉ s.mImmutableItems) (h : s.call ev = .ok s')
    (hin : target ∈ s'.mImmutableItems) : Arrived target ev s' := by
  obtain ⟨-, ⟨target', buf, hc, hput⟩ | ⟨-, rfl⟩ | ⟨-, -, hitems, -⟩⟩ := call_immutable_cases h
  · cases mem_putImmutableItem hput hin with
    | inl heq =>
        subst heq
        exact ⟨buf, hc, lookup_putImmutableItem hnew hput⟩
    | inr hold => exact absurd hold hnew
  · exact absurd ((mem_immutable_tick ev.now target).1.mp hin).1 hnew
  · rw [hitems] at hin
    exact absurd hin hnew

/-- A call after which a target is still there has changed neither its bytes
nor its arrival time. -/
theorem Arrived.keep (hs : Arrived target ev₀ s) (hold : target ∈ s.mImmutableItems)
    (h : s.call ev = .ok s') (hin : target ∈ s'.mImmutableItems) : Arrived target ev₀ s' := by
  obtain ⟨buf₀, hc₀, hbytes, hseen⟩ := hs
  obtain ⟨-, ⟨target', buf, -, hput⟩ | ⟨-, rfl⟩ | ⟨-, -, hitems, htimes⟩⟩ := call_immutable_cases h
  · obtain ⟨hitems, htimes⟩ := lookup_putImmutableItem_of_mem hold hput hin
    exact ⟨buf₀, hc₀, hitems.trans hbytes, htimes.trans hseen⟩
  · have hlive := ((mem_immutable_tick ev.now target).1.mp hin).2
    rw [hseen, Option.any_some] at hlive
    refine ⟨buf₀, hc₀, ?_, ?_⟩
    · rw [lookup_items_tick, hseen, Option.any_some, hlive, hbytes]
      rfl
    · rw [lookup_seen_tick, hseen, Option.filter_some, hlive]
      rfl
  · exact ⟨buf₀, hc₀, by rw [hitems, hbytes], by rw [htimes, hseen]⟩

/-- A tick takes the target if it arrived more than two hours ago. -/
theorem Arrived.mem_tick_iff (hs : Arrived target ev₀ s) (now : TimePoint) :
    target ∈ (s.tick now).mImmutableItems ↔ now - ev₀.now ≤ hours 2 := by
  obtain ⟨buf, -, hbytes, hseen⟩ := hs
  rw [(mem_immutable_tick now target).1, hseen, Option.any_some]
  simp [UnorderedMap.mem_of_lookup hbytes, seenExpired, kItemTtl]

end

/-- **An immutable item is immutable and expires on its own age.**  In every
state of a run, an absent target is not found and no tick brings it back.  A
present one has the bytes and the arrival time of the put that began its stay:
a further put changes nothing, a read decodes those bytes, and a tick takes the
item exactly if that put is more than two hours old. -/
theorem immutable_items_expire_on_their_own_age (settings : Settings)
    (bdecode : Bytes → Option Entry) {hist : List Event} {s : MemoryDhtStorage}
    (ht : (system settings).Trace hist s) (target : Sha1Hash) :
    (target ∉ s.mImmutableItems →
      (∀ item, s.getImmutableItem bdecode target item = (false, item)) ∧
        ∀ now, target ∉ (s.tick now).mImmutableItems) ∧
    (target ∈ s.mImmutableItems → ∃ pre ev post buf, hist = pre ++ ev :: post ∧
      ev.call = .putImmutableItem target buf ∧
      (system settings).HoldsSince (fun s => target ∈ s.mImmutableItems) pre ev post ∧
      s.mImmutableItems.lookup target = some buf ∧
      s.mImmutableSeen.lookup target = some ev.now ∧
      (∀ now first buf', s.putImmutableItem now first target buf' = .ok s) ∧
      (∀ item, s.getImmutableItem bdecode target item = match bdecode buf with
        | some decoded => (true, item.insert "v" decoded)
        | none => (false, item)) ∧
      ∀ now, target ∈ (s.tick now).mImmutableItems ↔ now - ev.now ≤ hours 2) := by
  constructor
  · intro hout
    have hnone : s.mImmutableItems.lookup target = none := AList.lookup_eq_none.mpr hout
    exact ⟨fun item => by simp [getImmutableItem, hnone],
      fun now hin => hout ((mem_immutable_tick now target).1.mp hin).1⟩
  · intro hin
    obtain ⟨pre, ev, post, hhist, hsince, harr⟩ :=
      ht.holdsSince (fun s => target ∈ s.mImmutableItems) (Arrived target)
        (show target ∉ (MemoryDhtStorage.ofSettings settings).mImmutableItems from
          AList.notMem_empty target)
        (fun s ev s' hnew hs hin => arrived_begin hnew hs hin)
        (fun s ev₀ ev s' hold harr hs hin => harr.keep hold hs hin) hin
    obtain ⟨buf, hc, hbytes, hseen⟩ := id harr
    have hget : ∀ item, s.getImmutableItem bdecode target item = match bdecode buf with
        | some decoded => (true, item.insert "v" decoded)
        | none => (false, item) := by
      intro item
      rw [getImmutableItem, hbytes]
      cases hd : bdecode buf with
      | none => simp only [hd]
      | some decoded => simp only [hd]
    exact ⟨pre, ev, post, buf, hhist, hc, hsince, hbytes, hseen,
      fun now first buf' => by rw [putImmutableItem, if_pos hin], hget, harr.mem_tick_iff⟩

/-- The first target is put again after two hours, and evicts the second. -/
def thirdPut : Event := ⟨hours 2, .fill 20 2, .putImmutableItem (.fill 20 1) [105, 51, 101]⟩

/-- The store after the three puts. -/
def oneItemBack : MemoryDhtStorage :=
  { MemoryDhtStorage.ofSettings oneItem with
    mImmutableItems := AList.singleton (.fill 20 1) [105, 51, 101]
    mImmutableSeen := (AList.singleton (.fill 20 2) 1).insert (.fill 20 1) (hours 2) }

/-- The arrival time of the first stay is 0; the second stay lasts for two
hours of its own, and a read of it gives the digit 3. -/
theorem immutable_items_expire_oneItemBack :
    (system oneItem).Trace [firstPut, secondPut, thirdPut] oneItemBack ∧
      (∀ item, oneItemBack.getImmutableItem digitDecode (.fill 20 1) item =
        (true, item.insert "v" (.integer 3))) ∧
      ∀ now, (.fill 20 1) ∈ (oneItemBack.tick now).mImmutableItems ↔ now - hours 2 ≤ hours 2 := by
  have ht : (system oneItem).Trace [firstPut, secondPut, thirdPut] oneItemBack :=
    System.trace_of_run rfl
  have h := immutable_items_expire_on_their_own_age oneItem digitDecode ht (.fill 20 1)
  obtain ⟨-, ev, -, buf, -, -, -, hbytes, hseen, -, hget, htick⟩ := h.2 (by decide)
  have hnow : some (hours 2) = some ev.now := hseen
  have hbuf : some [105, 51, 101] = some buf := hbytes
  rw [← Option.some.inj hbuf] at hget
  rw [← Option.some.inj hnow] at htick
  exact ⟨ht, hget, htick⟩

end BtDht.MyDhtStorage
