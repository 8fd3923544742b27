import Sm8850.Smem.Heap
import Sm8850.Lib.Path
import Mathlib.Data.List.Pairwise

/-! Runs of allocations: which of them keep the partition a stable map from items to separate
regions. -/
namespace Sm8850.Smem
open Lts

open Memory (peek poke leNat leBytes peek_congr)
open Run List

/-- A call of `qcom_smem_alloc`. -/
structure Call where
  item : Nat
  size : Nat
  locked : Bool
  pos : 1 ≤ size

section
variable (part : Partition) (itemCount : Nat) (mem : Mem) (c : Call)

def Call.alloc : Acc Mem := qcomSmemAlloc part itemCount mem c.locked c.item c.size

/-- The partition after the call. -/
def Call.after : Mem :=
  match (c.alloc part itemCount mem).res with
  | .ok mem' => mem'
  | .error _ => mem

/-- The call gets as far as the partition. -/
def Call.Reaches : Prop := smemItemLastFixed ≤ c.item ∧ c.item < itemCount ∧ c.locked = true

/-- An item is found at an address with a size. -/
def Found (item : Nat) (r : Nat × Nat) : Prop := (qcomSmemGet part itemCount mem item).res = .ok r

end

/-! ### Calls that fail -/

/-- A computation that only reads. -/
def ReadsOnly {α : Type} (m : Acc α) : Prop := ∀ a ∈ m.log, a.isWrite = false

/-- A computation that has not written when it fails. -/
def FailsClean {α : Type} (m : Acc α) : Prop := ∀ d, m.res = .error d → ReadsOnly m

section
variable {α β : Type} {m : Acc α} {f : α → Acc β}

theorem ReadsOnly.failsClean (h : ReadsOnly m) : FailsClean m := fun _ _ => h

theorem readsOnly_pure (a : α) : ReadsOnly (pure a) := nofun

theorem readsOnly_failWith (e : Errno) : ReadsOnly (failWith e : Acc α) := nofun

theorem readsOnly_readLe {mem : Mem} {addr len : Nat} : ReadsOnly (readLe mem addr len) := by
  intro a ha
  rcases mem_singleton.mp ha with rfl
  rfl

theorem ReadsOnly.bind (hm : ReadsOnly m) (hf : ∀ a, ReadsOnly (f a)) : ReadsOnly (m >>= f) := by
  intro a ha
  rcases mem_bind_log ha with h | ⟨b, -, h⟩
  · exact hm a h
  · exact hf b a h

theorem FailsClean.bind (hm : ReadsOnly m) (hf : ∀ a, FailsClean (f a)) : FailsClean (m >>= f) := by
  intro d hd a ha
  rcases mem_bind_log ha with h | ⟨b, hb, h⟩
  · exact hm a h
  · exact hf b d ((res_bind_of_ok hb).symm.trans hd) a h

theorem readsOnly_uncachedRound (mem : Mem) (item last e : Nat) : ReadsOnly (uncachedRound mem item last e) := by
  unfold uncachedRound round
  split
  · refine readsOnly_readLe.bind fun canary => ?_
    split
    · exact readsOnly_failWith _
    · refine readsOnly_readLe.bind fun it => ?_
      split
      · exact readsOnly_pure _
      · refine ReadsOnly.bind ?_ fun e' => ?_
        · exact readsOnly_readLe.bind fun _ => readsOnly_readLe.bind fun _ => readsOnly_pure _
        · split
          · exact readsOnly_failWith _
          · exact readsOnly_pure _
  · exact readsOnly_pure _

theorem readsOnly_walk {body : Nat → Acc Round} (hbody : ∀ e, ReadsOnly (body e)) : ∀ n e, ReadsOnly (walk body n e) := by
  intro n
  induction n with
  | zero => exact nofun
  | succ n ih =>
    intro e
    refine (hbody e).bind fun r => ?_
    cases r with
    | done => exact readsOnly_pure _
    | hit => exact readsOnly_pure _
    | next e' => exact ih e'

theorem failsClean_writeEntry {mem : Mem} {phdr hdr item size : Nat} : FailsClean (writeEntry mem phdr hdr item size) := by
  intro d hd
  cases (writeEntry_res mem phdr hdr item size).symm.trans hd

theorem failsClean_allocPrivate {part : Partition} {mem : Mem} {item size : Nat} :
    FailsClean (qcomSmemAllocPrivate part mem item size) := by
  refine FailsClean.bind (readsOnly_readLe.bind fun _ => readsOnly_pure _) fun last => ?_
  refine FailsClean.bind (readsOnly_readLe.bind fun _ => readsOnly_pure _) fun cached => ?_
  split
  · exact (readsOnly_failWith _).failsClean
  · refine FailsClean.bind (readsOnly_walk (readsOnly_uncachedRound mem item last) _ _) ?_
    rintro ⟨hit, hdr⟩
    dsimp only
    split
    · exact (readsOnly_failWith _).failsClean
    · split
      · exact (readsOnly_failWith _).failsClean
      · split
        · exact (readsOnly_failWith _).failsClean
        · exact failsClean_writeEntry

end

/-- A call that fails writes nothing. -/
theorem Call.failsClean (part : Partition) (itemCount : Nat) (mem : Mem) (c : Call) :
    FailsClean (c.alloc part itemCount mem) := by
  unfold Call.alloc qcomSmemAlloc
  split
  · exact (readsOnly_failWith _).failsClean
  · split
    · exact (readsOnly_failWith _).failsClean
    · split
      · exact (readsOnly_failWith _).failsClean
      · exact failsClean_allocPrivate

section
variable {part : Partition} {itemCount item n : Nat} {mem mem' : Mem} {c : Call} {us cs new : List Entry} {r : Nat × Nat}

/-! ### Which calls are good -/

theorem found_iff {a : Nat} (h : Valid part mem us cs) :
    Found part itemCount mem item (a, n) ↔ item < itemCount ∧ (item, a, n) ∈ itemsOf part us cs := by
  unfold Found qcomSmemGet
  by_cases hitem : itemCount ≤ item
  · rw [if_pos hitem]
    refine ⟨fun hres => ?_, fun hlt => absurd hlt.1 (by omega)⟩
    cases hres
  · rw [if_neg hitem, getPrivate_iff h]
    exact ⟨fun hmem => ⟨by omega, hmem⟩, fun hmem => hmem.2⟩

/-- The regions of the items a look-up finds are separate from each other and from the headers, and
those of the uncached entries are below the cached region. -/
structure Disjointed (part : Partition) (itemCount : Nat) (mem : Mem) (us cs : List Entry) : Prop where
  items : ∀ i j r q, i ≠ j → Found part itemCount mem i r → Found part itemCount mem j q → Separate r q
  headers : ∀ i r, Found part itemCount mem i r → ∀ e ∈ headersOf part us cs, Separate r (e, 16)
  cached : ∀ i ∈ us.map Entry.item, ∀ r, Found part itemCount mem i r → r.1 + r.2 ≤ freeCached part mem

instance : Std.Symm (fun p q : Nat × Nat × Nat => Separate p.2 q.2) := ⟨fun _ _ h => Or.symm h⟩

theorem Valid.disjointed (h : Valid part mem us cs) : Disjointed part itemCount mem us cs where
  items i j r q hne hr hq := by
    have hr := ((found_iff h).mp hr).2
    have hq := ((found_iff h).mp hq).2
    exact (pairwise_map.mp (pairwise_append.mp h.placed).2.1).forall hr hq fun heq => hne (congrArg Prod.fst heq)
  headers i r hr e he := Or.symm ((pairwise_append.mp h.placed).2.2 _ (mem_map_of_mem he) _ (mem_map_of_mem ((found_iff h).mp hr).2))
  cached i hi r hr := by
    have hr := ((found_iff h).mp hr).2
    have hnodup := nodup_append.mp (map_append ▸ h.items)
    have horder := h.order
    rcases mem_append.mp hr with hr | hr
    · have := h.uncached.placed.within r (mem_append_right _ (mem_map_of_mem hr))
      omega
    · exact absurd rfl (hnodup.2.2 i hi i (map_cachedItems .. ▸ mem_map_of_mem hr))

/-- What an allocation has to do: whatever was found is found in the same place, an item that has
been allocated is found with its size, an item that exists is refused as such, a call that fails has
written nothing, and the partition stays valid, with one more entry if the call succeeds. -/
structure Good (part : Partition) (itemCount : Nat) (mem : Mem) (c : Call) (mem' : Mem) : Prop where
  stable : ∀ i r, Found part itemCount mem i r → Found part itemCount mem' i r
  found : (c.alloc part itemCount mem).res = .ok mem' → ∃ a, Found part itemCount mem' c.item (a, c.size)
  existing : c.Reaches itemCount → (∃ r, Found part itemCount mem c.item r) →
    (c.alloc part itemCount mem).res = .error (.errno .eexist)
  failing : ∀ d, (c.alloc part itemCount mem).res = .error d → mem' = mem ∧ ReadsOnly (c.alloc part itemCount mem)
  grown : ∀ us cs, Valid part mem us cs → ∃ new, Valid part mem' (us ++ new) cs ∧
    Disjointed part itemCount mem' (us ++ new) cs ∧
    ((c.alloc part itemCount mem).res = .ok mem' → ∃ x, new = [x] ∧ x.item = c.item ∧ x.len = c.size)

/-- The condition for a call: an item that exists is among the uncached entries, and an address behind
a new entry that passes the check of the driver has not wrapped. -/
def Clean (part : Partition) (itemCount : Nat) (mem : Mem) (c : Call) : Prop :=
  c.Reaches itemCount → ∀ us cs, Valid part mem us cs → c.item ∈ us.map Entry.item ∨
    c.item ∉ cs.map Entry.item ∧ (allocEnd part mem c.size ≤ freeCached part mem →
      freeUncached part mem + 16 + (c.size + 7) / 8 * 8 ≤ freeCached part mem)

theorem alloc_reaches (h : c.Reaches itemCount) :
    c.alloc part itemCount mem = qcomSmemAllocPrivate part mem c.item c.size := by
  obtain ⟨h₁, h₂, h₃⟩ := h
  unfold Call.alloc qcomSmemAlloc
  rw [if_neg (by omega), if_neg (by omega), h₃]
  rfl

theorem alloc_refused (h : ¬ c.Reaches itemCount) : ∃ d, (c.alloc part itemCount mem).res = .error d := by
  unfold Call.alloc qcomSmemAlloc
  split
  · exact ⟨_, rfl⟩
  · split
    · exact ⟨_, rfl⟩
    · split
      · exact ⟨_, rfl⟩
      · next h₁ h₂ h₃ => exact absurd ⟨by omega, by omega, by simpa using h₃⟩ h

theorem after_of_error {d : Stop} (h : (c.alloc part itemCount mem).res = .error d) : c.after part itemCount mem = mem := by
  unfold Call.after
  rw [h]

theorem after_of_ok (h : (c.alloc part itemCount mem).res = .ok mem') : c.after part itemCount mem = mem' := by
  unfold Call.after
  rw [h]

/-- A call that fails is good if it does not refuse an item that exists for another reason. -/
theorem good_of_error {d : Stop} (hres : (c.alloc part itemCount mem).res = .error d)
    (hexist : c.Reaches itemCount → (∃ r, Found part itemCount mem c.item r) → d = .errno .eexist) :
    Good part itemCount mem c (c.after part itemCount mem) where
  stable i r h := by rwa [after_of_error hres]
  found h := by cases hres.symm.trans h
  existing hreach hfound := by rw [hres, hexist hreach hfound]
  failing d' hd := ⟨after_of_error hres, c.failsClean part itemCount mem d' hd⟩
  grown us cs h := by
    rw [after_of_error hres]
    refine ⟨[], by rwa [append_nil], by rw [append_nil]; exact h.disjointed, fun hok => ?_⟩
    cases hres.symm.trans hok

theorem uncachedItems_append {e last : Nat} (h : Chain mem e us last) :
    uncachedItems e (us ++ new) = uncachedItems e us ++ uncachedItems last new := by
  induction us generalizing e with
  | nil =>
    obtain rfl : e = last := h
    rfl
  | cons x us ih => exact congrArg (_ :: ·) (ih h.2)

/-- The items stay where they are when entries are put behind them. -/
theorem mem_itemsOf_append {p : Nat × Nat × Nat} {last : Nat} (h : Chain mem (part.virtBase + 32) us last) :
    p ∈ itemsOf part (us ++ new) cs ↔ p ∈ itemsOf part us cs ∨ p ∈ uncachedItems last new := by
  unfold itemsOf
  rw [uncachedItems_append h]
  simp only [mem_append]
  tauto

/-- A call that puts a new entry behind the others is good. -/
theorem good_of_new {x : Entry} (h : Valid part mem us cs) (hres : (c.alloc part itemCount mem).res = .ok mem')
    (hreach : c.item < itemCount) (hno : c.item ∉ (us ++ cs).map Entry.item) (hitem : x.item = c.item)
    (hlen : x.len = c.size) (h' : Valid part mem' (us ++ [x]) cs) : Good part itemCount mem c mem' where
  stable i r hr := by
    rw [found_iff h] at hr
    rw [found_iff h', mem_itemsOf_append h.uncached]
    exact ⟨hr.1, .inl hr.2⟩
  found _ := by
    refine ⟨freeUncached part mem + 16 + x.paddingHdr, ?_⟩
    rw [found_iff h', mem_itemsOf_append h.uncached, ← hitem, ← hlen]
    exact ⟨hitem ▸ hreach, .inr mem_cons_self⟩
  existing _ hfound := by
    obtain ⟨r, hr⟩ := hfound
    exact absurd (map_itemsOf .. ▸ mem_map_of_mem ((found_iff h).mp hr).2) hno
  failing d hd := by cases hres.symm.trans hd
  grown us' cs' hv := by
    obtain ⟨rfl, rfl⟩ := h.unique hv
    exact ⟨[x], h', h'.disjointed, fun _ => ⟨x, rfl, hitem, hlen⟩⟩

/-- A clean call is good. -/
theorem good_of_clean (hcount : itemCount ≤ 2 ^ 16) (h : Valid part mem us cs) (hclean : Clean part itemCount mem c) :
    Good part itemCount mem c (c.after part itemCount mem) := by
  by_cases hreach : c.Reaches itemCount
  · have halloc : c.alloc part itemCount mem = qcomSmemAllocPrivate part mem c.item c.size := alloc_reaches hreach
    by_cases hin : c.item ∈ us.map Entry.item
    · exact good_of_error (by rw [halloc, allocPrivate_existing h hin]) fun _ _ => rfl
    · obtain ⟨hcs, hroom⟩ := (hclean hreach us cs h).resolve_left hin
      have hno : c.item ∉ (us ++ cs).map Entry.item := by
        rw [map_append, mem_append]
        tauto
      have hnew := allocPrivate_new c.size h hin
      by_cases hfull : freeCached part mem < allocEnd part mem c.size
      · rw [if_pos hfull, ← halloc] at hnew
        refine good_of_error hnew fun _ hfound => ?_
        obtain ⟨r, hr⟩ := hfound
        exact absurd (map_itemsOf .. ▸ mem_map_of_mem ((found_iff h).mp hr).2) hno
      · obtain ⟨hlo, hmid, hhi, hlt⟩ := h.bounds
        have hfit := hroom (by omega)
        have hsize := part.size_lt
        have hitem := hreach.2.1
        rw [if_neg hfull, ← halloc, writeEntry_res] at hnew
        rw [after_of_ok hnew]
        exact good_of_new h hnew hitem hno rfl len_newEntry
          (entryWritten_valid h (by omega) c.pos (by omega) hno hfit)
  · obtain ⟨d, hd⟩ : ∃ d, (c.alloc part itemCount mem).res = .error d := alloc_refused hreach
    exact good_of_error hd fun hr => absurd hr hreach

/-- A good call is clean. -/
theorem clean_of_good (h : Valid part mem us cs) (hgood : Good part itemCount mem c (c.after part itemCount mem)) :
    Clean part itemCount mem c := by
  intro hreach us' cs' hv
  obtain ⟨rfl, rfl⟩ := h.unique hv
  by_cases hin : c.item ∈ us.map Entry.item
  · exact .inl hin
  · refine .inr ⟨fun hcs => ?_, fun hpass => ?_⟩
    · -- the item is found among the cached entries, but the call does not say so
      rw [← map_cachedItems (cachedHdr part) (part.virtBase + part.size)] at hcs
      obtain ⟨⟨i, a, k⟩, hmem, rfl⟩ := mem_map.mp hcs
      have hfound : Found part itemCount mem c.item (a, k) :=
        (found_iff h).mpr ⟨hreach.2.1, mem_append_right _ hmem⟩
      have hres := hgood.existing hreach ⟨_, hfound⟩
      rw [alloc_reaches hreach, allocPrivate_new c.size h hin] at hres
      split at hres <;> cases hres
    · have hres := allocPrivate_new c.size h hin
      rw [if_neg (by omega), ← alloc_reaches hreach, writeEntry_res] at hres
      obtain ⟨hlo, hmid, hhi, hlt⟩ := h.bounds
      rw [after_of_ok hres] at hgood
      obtain ⟨new, hv', -, hnew⟩ := hgood.grown us cs h
      obtain ⟨x, rfl, -, hlen⟩ := hnew hres
      -- the size in the new header is what was requested only if nothing has wrapped
      obtain ⟨m, hm, hx, hend⟩ := Chain.append.mp hv'.uncached
      have hkept : Chain (entryWritten mem part.virtBase (freeUncached part mem) c.item c.size) (part.virtBase + 32) us
          (freeUncached part mem) :=
        h.uncached.frame fun i _ _ => entryWritten_outside (.inl (by omega)) (.inr (by omega))
      obtain rfl : m = freeUncached part mem := hm.end_unique hkept
      have hsize : x.size = align c.size 8 % 2 ^ 32 := by
        rw [← headerWritten_size mem (freeUncached part mem) c.item c.size, ← hx.size]
        exact congrArg leNat (peek_congr fun i _ _ => entryWritten_above (by omega) (by omega))
      have hcached : freeCached part (entryWritten mem part.virtBase (freeUncached part mem) c.item c.size) =
          freeCached part mem := by
        unfold freeCached
        rw [peek_congr fun i _ _ => entryWritten_outside (.inl (by omega)) (.inr (by omega))]
      have horder := hv'.order
      have hdata := x.holdsData
      have hlt' := x.size_lt
      have hle := x.len_le
      rw [align_eight (by omega)] at hsize
      rw [hcached, ← hend] at horder
      omega

/-! ### Runs -/

def Step (part : Partition) (itemCount : Nat) (mem : Mem) (c : Call) (mem' : Mem) : Prop := mem' = c.after part itemCount mem

/-- Whatever is found at some time is found in the same place at the end. -/
def Stays (part : Partition) (itemCount : Nat) (mem : Mem) (run : List (Call × Mem)) : Prop :=
  ∀ before later, run = before ++ later → ∀ i r, Found part itemCount (final mem before) i r →
    Found part itemCount (final mem run) i r

variable {run : List (Call × Mem)}

theorem found_of_good (h : Lts.Path (Good part itemCount) mem run) {i : Nat} (hfound : Found part itemCount mem i r) :
    Found part itemCount (final mem run) i r := by
  induction run generalizing mem with
  | nil => exact hfound
  | cons s run ih =>
    obtain ⟨c, mem'⟩ := s
    exact ih h.2 (h.1.stable i r hfound)

theorem stays_of_good (h : Lts.Path (Good part itemCount) mem run) : Stays part itemCount mem run := by
  rintro before later rfl i r hfound
  rw [final_append]
  exact found_of_good (path_append.mp h).2 hfound

/-- From a valid partition, all the calls of a run are good, and whatever is found stays where it
is, exactly when all the calls are clean. -/
theorem heap_good_iff (hcount : itemCount ≤ 2 ^ 16) (h : Valid part mem us cs)
    (hrun : Lts.Path (Step part itemCount) mem run) :
    Lts.Path (Good part itemCount) mem run ∧ Stays part itemCount mem run ↔ Steps (Clean part itemCount) mem run := by
  have hiff : Lts.Path (Good part itemCount) mem run ↔ Steps (Clean part itemCount) mem run := by
    refine hrun.good_iff_steps (I := fun mem => ∃ us cs, Valid part mem us cs) ?_ ?_ ⟨us, cs, h⟩
    · rintro mem c mem' - ⟨us, cs, hv⟩ hgood
      obtain ⟨new, hnew, -⟩ := hgood.grown us cs hv
      exact ⟨us ++ new, cs, hnew⟩
    · rintro mem c mem' rfl ⟨us, cs, hv⟩
      exact ⟨clean_of_good hv, good_of_clean hcount hv⟩
  exact ⟨fun hgood => hiff.mp hgood.1, fun hok => ⟨hiff.mpr hok, stays_of_good (hiff.mpr hok)⟩⟩

end

/-! ### A partition of 128 bytes -/

def samplePartition : Partition := ⟨4096, 128, 32, by decide, by decide, smallPartition.cacheline_lt, by decide⟩

theorem no_padding : 0 < 2 ^ 16 := by decide
theorem some_data : 0 < 16 := by decide

def sampleEntry : Entry := ⟨9, 16, 0, 0, by decide, by decide, no_padding, no_padding, some_data⟩

/-- Without entries. -/
def emptyMem : Mem := poke (fun _ => 0) (4096 + 8) (leBytes 4 128 ++ leBytes 4 32 ++ leBytes 4 128)

/-- With one cached entry, at its end. -/
def cachedMem : Mem := poke (poke (fun _ => 0) (4096 + 8) (leBytes 4 128 ++ leBytes 4 32 ++ leBytes 4 80)) (4096 + 96)
  (leBytes 2 smemPrivateCanary ++ leBytes 2 9 ++ leBytes 4 16)

theorem valid_emptyMem : Valid samplePartition emptyMem [] [] :=
  ⟨by decide +kernel, by decide +kernel, by decide +kernel, by unfold Chain; decide +kernel, by unfold Down; decide +kernel,
    .nil⟩

theorem valid_cachedMem : Valid samplePartition cachedMem [] [sampleEntry] :=
  ⟨by decide +kernel, by decide +kernel, by decide +kernel, by unfold Chain; decide +kernel,
    ⟨by decide +kernel, ⟨by decide +kernel, by decide +kernel, by decide +kernel, by decide +kernel, by decide +kernel⟩,
      by unfold Down; decide +kernel⟩, nodup_singleton _⟩

def sampleCall : Call := ⟨9, 5, true, by decide⟩

theorem clean_sampleCall : Clean samplePartition 512 emptyMem sampleCall := by
  intro _ us cs hv
  obtain ⟨-, rfl⟩ := hv.unique valid_emptyMem
  exact .inr ⟨not_mem_nil, fun _ => by decide +kernel⟩

def sampleRun : List (Call × Mem) := [(sampleCall, sampleCall.after samplePartition 512 emptyMem)]

theorem path_sampleRun : Lts.Path (Step samplePartition 512) emptyMem sampleRun := ⟨rfl, trivial⟩

theorem heap_good_sample :
    Lts.Path (Good samplePartition 512) emptyMem sampleRun ∧ Stays samplePartition 512 emptyMem sampleRun :=
  (heap_good_iff (by decide) valid_emptyMem path_sampleRun).mpr ⟨clean_sampleCall, trivial⟩

/-- An item that a look-up finds among the cached entries is allocated a second time. -/
theorem alloc_repeats_cached : Valid samplePartition cachedMem [] [sampleEntry] ∧
    Found samplePartition 512 cachedMem sampleCall.item (4096 + 80, 16) ∧
    ∃ mem', (sampleCall.alloc samplePartition 512 cachedMem).res = .ok mem' :=
  ⟨valid_cachedMem, by unfold Found; decide +kernel, entryWritten cachedMem 4096 (4096 + 32) 9 5, by
    rw [alloc_reaches ⟨by decide, by decide, rfl⟩, allocPrivate_new _ valid_cachedMem (by decide)]
    exact if_neg (by decide +kernel)⟩

end Sm8850.Smem
