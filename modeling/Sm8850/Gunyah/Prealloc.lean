import Mathlib.Data.UInt

/-! The heap memory that is added before a dma-buf is lent (gh_rm_heap_manager.c). -/
namespace Sm8850.Gunyah.Prealloc
open Function (update update_self update_of_ne)

/-- `enum gh_hyp_heap_label`. -/
inductive Heap where
  | root
  | rm
  deriving DecidableEq

/-- `HEAP_MIN_RESOLUTION`. -/
def minResolution : Nat := 4 * 2 ^ 20

/-- `__get_dmabuf_heap_size`. -/
def dmabufHeapSize (size : UInt64) : Heap → Nat
  | .root => size.toNat / 4096 * 20
  | .rm => size.toNat / 4096 * 12

/-- The free memory of the heaps, and the parcels that were added to them. -/
structure State where
  free : Heap → Nat
  numParcels : Heap → Nat
  totalHeapAdded : Heap → Nat

/-- What the calls of one `gh_rm_heap_add_chunk` return. -/
structure Calls where
  parcel : Bool
  poolAlloc : Int
  acl : Bool
  sgl : Bool
  lend : Int
  addMemory : Int

/-- `gh_rm_heap_add_chunk`. -/
def addChunk (c : Calls) (size : Nat) (heap : Heap) (s : State) : Int × State :=
  if size % minResolution ≠ 0 then (-22, s)
  else if !c.parcel then (-12, s)
  else if c.poolAlloc ≠ 0 then (c.poolAlloc, s)
  else if !c.acl then (-12, s)
  else if !c.sgl then (-12, s)
  else if c.lend ≠ 0 then (c.lend, s)
  else if c.addMemory < 0 then (c.addMemory, s)
  else
    (0, { free := update s.free heap (s.free heap + size)
          numParcels := update s.numParcels heap (s.numParcels heap + 1)
          totalHeapAdded := update s.totalHeapAdded heap (s.totalHeapAdded heap + size) })

/-- The loop over the chunks. Each is added to the root heap, whichever heap is short. -/
def addChunks (calls : Nat → Calls) : Nat → State → State
  | 0, s => s
  | n + 1, s => (addChunk (calls n) minResolution .root (addChunks calls n s)).2

/-- `num_chunks`, a `u16`, of the memory that is missing. -/
def numChunks (missing : Nat) : Nat := (missing + (minResolution - 1)) / minResolution % 2 ^ 16

/-- The body of the loop over the heaps. -/
def preallocHeap (calls : Heap → Nat → Calls) (size : UInt64) (heap : Heap) (s : State) : State :=
  if s.free heap < dmabufHeapSize size heap then
    addChunks (calls heap) (numChunks (dmabufHeapSize size heap - s.free heap)) s
  else s

/-- `gh_rm_heap_memlend_prealloc`. -/
def memlendPrealloc (enabled : Bool) (calls : Heap → Nat → Calls) (size : UInt64) (s : State) : State :=
  if enabled then preallocHeap calls size .rm (preallocHeap calls size .root s) else s

/-- Each heap has the free memory that is estimated for the buffer. -/
def Covered (size : UInt64) (s : State) : Prop := ∀ heap, dmabufHeapSize size heap ≤ s.free heap

def Calls.Succeed (c : Calls) : Prop :=
  c.parcel = true ∧ c.poolAlloc = 0 ∧ c.acl = true ∧ c.sgl = true ∧ c.lend = 0 ∧ 0 ≤ c.addMemory

/-- The resource manager heap is not short, and the root heap lacks no more chunks than a `u16` counts. -/
def RootShort (enabled : Bool) (size : UInt64) (s : State) : Prop :=
  dmabufHeapSize size .rm ≤ s.free .rm ∧
    (dmabufHeapSize size .root ≤ s.free .root ∨
      enabled = true ∧ dmabufHeapSize size .root - s.free .root ≤ (2 ^ 16 - 1) * minResolution)

section
variable {calls : Heap → Nat → Calls} {size : UInt64} {s : State} {heap : Heap} {missing : Nat}

theorem addChunk_succeeds {c : Calls} (h : c.Succeed) :
    (addChunk c minResolution heap s).2.free = update s.free heap (s.free heap + minResolution) := by
  obtain ⟨h1, h2, h3, h4, h5, h6⟩ := h
  simp [addChunk, h1, h2, h3, h4, h5, Int.not_lt.mpr h6]

theorem addChunks_free (h : ∀ i, (calls heap i).Succeed) (n : Nat) :
    (addChunks (calls heap) n s).free = update s.free .root (s.free .root + n * minResolution) := by
  induction n with
  | zero => simp [addChunks]
  | succ n ih =>
    rw [addChunks, addChunk_succeeds (h n), ih, update_self, Function.update_idem, Nat.succ_mul, Nat.add_assoc]

/-- The chunks cover what is missing unless there are too many of them to count. -/
theorem numChunks_covers_iff (hpos : 0 < missing) :
    missing ≤ numChunks missing * minResolution ↔ missing ≤ (2 ^ 16 - 1) * minResolution := by
  unfold numChunks minResolution
  omega

theorem preallocHeap_free (h : ∀ heap i, (calls heap i).Succeed) :
    (preallocHeap calls size heap s).free = update s.free .root
      (s.free .root + if s.free heap < dmabufHeapSize size heap then
        numChunks (dmabufHeapSize size heap - s.free heap) * minResolution else 0) := by
  unfold preallocHeap
  split_ifs
  · exact addChunks_free (h heap) _
  · simp

/-- The heaps are covered exactly when the resource manager heap was before, and the root heap lacked no
more than can be counted. -/
theorem memlendPrealloc_covers_iff (enabled : Bool) (h : ∀ heap i, (calls heap i).Succeed) :
    Covered size (memlendPrealloc enabled calls size s) ↔ RootShort enabled size s := by
  have hcover : ∀ t : State, Covered size t ↔ dmabufHeapSize size .rm ≤ t.free .rm ∧ dmabufHeapSize size .root ≤ t.free .root := by
    intro t
    exact ⟨fun hc => ⟨hc .rm, hc .root⟩, fun ⟨hrm, hroot⟩ heap => by cases heap <;> assumption⟩
  rw [hcover, RootShort]
  cases enabled with
  | false => simp [memlendPrealloc]
  | true =>
    have hrm : (memlendPrealloc true calls size s).free .rm = s.free .rm := by
      simp [memlendPrealloc, preallocHeap_free h]
    rw [hrm]
    refine and_congr_right fun hle => ?_
    -- the second heap is not short, so it adds nothing to the first
    have hroot : (memlendPrealloc true calls size s).free .root = (preallocHeap calls size .root s).free .root := by
      simp [memlendPrealloc, preallocHeap_free h, Nat.not_lt.mpr hle]
    rw [hroot, preallocHeap_free h, update_self]
    by_cases hshort : s.free .root < dmabufHeapSize size .root
    · have hiff := numChunks_covers_iff (Nat.sub_pos_of_lt hshort)
      rw [if_pos hshort, ← hiff]
      simp only [true_and]
      omega
    · simp [hshort, Nat.not_lt.mp hshort]

end

def allSucceed : Heap → Nat → Calls := fun _ _ => ⟨true, 0, true, true, 0, 0⟩

/-- The resource manager heap has 4 MB free and the root heap nothing. -/
def rootEmpty : State := ⟨fun heap => if heap = .rm then 2 ^ 22 else 0, fun _ => 0, fun _ => 0⟩

/-- A buffer of a gigabyte takes 5 MB of the root heap, which is two chunks. -/
theorem memlendPrealloc_covers_gigabyte :
    RootShort true (2 ^ 30) rootEmpty ∧ Covered (2 ^ 30) (memlendPrealloc true allSucceed (2 ^ 30) rootEmpty) := by
  have hshort : RootShort true (2 ^ 30) rootEmpty := ⟨by decide, .inr ⟨rfl, by decide⟩⟩
  exact ⟨hshort, (memlendPrealloc_covers_iff true fun _ _ => ⟨rfl, rfl, rfl, rfl, rfl, Int.le_refl 0⟩).mpr hshort⟩

/-- The resource manager heap is short of 3 MB. A chunk is added to the root heap for it. -/
theorem rm_heap_stays_short :
    (memlendPrealloc true allSucceed (2 ^ 30) ⟨fun _ => 0, fun _ => 0, fun _ => 0⟩).free .rm = 0 ∧
    dmabufHeapSize (2 ^ 30) .rm = 3 * 2 ^ 20 ∧
    (memlendPrealloc true allSucceed (2 ^ 30) ⟨fun _ => 0, fun _ => 0, fun _ => 0⟩).free .root = 3 * 2 ^ 22 := by
  decide

end Sm8850.Gunyah.Prealloc
