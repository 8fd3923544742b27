import Sm8850.Smem.Safety

/-! A private partition as two lists of entries: the uncached ones grow up from the header, the cached
ones down from the end. The functions are those of the lists. -/
namespace Sm8850.Smem
open Prod Nat

open Memory (peek poke leNat leBytes peek_congr leNat_lt length_peek leNat_leBytes leNat_leBytes_of_lt length_leBytes
  peek_poke_self peek_poke_disjoint poke_outside)
open Run List

/-! ### Entries in memory -/

/-- An entry with its data. Its size includes the padding behind the data. -/
@[ext] structure Entry where
  item : Nat
  size : Nat
  paddingData : Nat
  paddingHdr : Nat
  item_lt : item < 2 ^ 16
  size_lt : size < 2 ^ 32
  paddingHdr_lt : paddingHdr < 2 ^ 16
  paddingData_lt : paddingData < 2 ^ 16
  holdsData : paddingData < size

/-- The length of the data. -/
def Entry.len (x : Entry) : Nat := x.size - x.paddingData

/-- The header of an entry stands at an address. -/
structure EntryAt (mem : Mem) (e : Nat) (x : Entry) : Prop where
  canary : entryCanary mem e = smemPrivateCanary
  item : entryItem mem e = x.item
  size : leNat (peek mem (e + 4) 4) = x.size
  paddingData : leNat (peek mem (e + 8) 2) = x.paddingData
  paddingHdr : leNat (peek mem (e + 10) 2) = x.paddingHdr

/-- The uncached entries from an address up to another. -/
def Chain (mem : Mem) : Nat → List Entry → Nat → Prop
  | e, [], last => e = last
  | e, x :: xs, last => EntryAt mem e x ∧ Chain mem (e + 16 + x.paddingHdr + x.size) xs last

/-- The cached entries below an address down to another. A header takes `a` bytes, and its data
stands below it. -/
def Down (mem : Mem) (a : Nat) : Nat → List Entry → Nat → Prop
  | top, [], last => top = last
  | top, x :: xs, last => a + x.size ≤ top ∧ EntryAt mem (top - a) x ∧ Down mem a (top - a - x.size) xs last

section
variable {mem mem' : Mem} {a e top last last' : Nat} {x y : Entry} {xs ys us cs : List Entry}

theorem EntryAt.unique (hx : EntryAt mem e x) (hy : EntryAt mem e y) : x = y :=
  Entry.ext (hx.item.symm.trans hy.item) (hx.size.symm.trans hy.size) (hx.paddingData.symm.trans hy.paddingData)
    (hx.paddingHdr.symm.trans hy.paddingHdr)

theorem EntryAt.frame (h : EntryAt mem e x) (hmem : ∀ i, e ≤ i → i < e + 16 → mem' i = mem i) : EntryAt mem' e x := by
  have hpeek : ∀ o k, o + k ≤ 16 → peek mem' (e + o) k = peek mem (e + o) k :=
    fun o k hk => peek_congr fun i h₁ h₂ => hmem i (by omega) (by omega)
  refine ⟨?_, ?_, ?_, ?_, ?_⟩
  · exact (congrArg leNat (hpeek 0 2 (by decide))).trans h.canary
  · exact (congrArg leNat (hpeek 2 2 (by decide))).trans h.item
  · exact (congrArg leNat (hpeek 4 4 (by decide))).trans h.size
  · exact (congrArg leNat (hpeek 8 2 (by decide))).trans h.paddingData
  · exact (congrArg leNat (hpeek 10 2 (by decide))).trans h.paddingHdr

theorem Chain.le (h : Chain mem e xs last) : e ≤ last := by
  induction xs generalizing e with
  | nil => exact le_of_eq h
  | cons x xs ih =>
    have := ih h.2
    omega

/-- Something stands before the end. -/
theorem Chain.lt (h : Chain mem e (x :: xs) last) : e < last := by
  have := h.2.le
  omega

theorem Chain.unique (hx : Chain mem e xs last) (hy : Chain mem e ys last) : xs = ys := by
  induction xs generalizing e ys with
  | nil =>
    cases ys with
    | nil => rfl
    | cons y ys => exact absurd hx (Nat.ne_of_lt hy.lt)
  | cons x xs ih =>
    cases ys with
    | nil => exact absurd hy (Nat.ne_of_lt hx.lt)
    | cons y ys =>
      obtain rfl := hx.1.unique hy.1
      rw [ih hx.2 hy.2]

theorem Chain.end_unique (h : Chain mem e xs last) (h' : Chain mem e xs last') : last = last' := by
  induction xs generalizing e with
  | nil => exact Eq.trans (Eq.symm h) h'
  | cons x xs ih => exact ih h.2 h'.2

theorem Chain.frame (h : Chain mem e xs last) (hmem : ∀ i, e ≤ i → i < last → mem' i = mem i) : Chain mem' e xs last := by
  induction xs generalizing e with
  | nil => exact h
  | cons x xs ih =>
    have hle := h.2.le
    exact ⟨h.1.frame fun i h₁ h₂ => hmem i h₁ (by omega), ih h.2 fun i h₁ h₂ => hmem i (by omega) h₂⟩

theorem Chain.append : Chain mem e (xs ++ ys) last ↔ ∃ m, Chain mem e xs m ∧ Chain mem m ys last := by
  induction xs generalizing e with
  | nil =>
    refine ⟨fun h => ⟨e, rfl, h⟩, ?_⟩
    rintro ⟨m, rfl, h⟩
    exact h
  | cons x xs ih =>
    change EntryAt mem e x ∧ Chain mem _ (xs ++ ys) last ↔ ∃ m, (EntryAt mem e x ∧ Chain mem _ xs m) ∧ Chain mem m ys last
    rw [ih]
    refine ⟨?_, ?_⟩
    · rintro ⟨hx, m, h₁, h₂⟩
      exact ⟨m, ⟨hx, h₁⟩, h₂⟩
    · rintro ⟨m, ⟨hx, h₁⟩, h₂⟩
      exact ⟨hx, m, h₁, h₂⟩

theorem Down.le (h : Down mem a top xs last) : last ≤ top := by
  induction xs generalizing top with
  | nil => exact le_of_eq (Eq.symm h)
  | cons x xs ih =>
    have := ih h.2.2
    omega

theorem Down.lt (h : Down mem a top (x :: xs) last) : last < top := by
  have hle := h.2.2.le
  have hroom := h.1
  have hdata := x.holdsData
  omega

theorem Down.unique (hx : Down mem a top xs last) (hy : Down mem a top ys last) : xs = ys := by
  induction xs generalizing top ys with
  | nil =>
    cases ys with
    | nil => rfl
    | cons y ys => exact absurd hx (ne_of_gt hy.lt)
  | cons x xs ih =>
    cases ys with
    | nil => exact absurd hy (ne_of_gt hx.lt)
    | cons y ys =>
      obtain rfl := hx.2.1.unique hy.2.1
      rw [ih hx.2.2 hy.2.2]

theorem Down.frame (h : Down mem a top xs last) (ha : 16 ≤ a) (hmem : ∀ i, last ≤ i → i < top → mem' i = mem i) :
    Down mem' a top xs last := by
  induction xs generalizing top with
  | nil => exact h
  | cons x xs ih =>
    have hle := h.2.2.le
    have hroom := h.1
    exact ⟨h.1, h.2.1.frame fun i h₁ h₂ => hmem i (by omega) (by omega), ih h.2.2 fun i h₁ h₂ => hmem i h₁ (by omega)⟩

end

/-! ### A valid partition -/

/-- The space a cached header takes. -/
def cachedHdr (part : Partition) : Nat := align sizeofEntry part.cacheline

/-- The partition holds the uncached entries `us` and the cached entries `cs`, with different
items. -/
structure Valid (part : Partition) (mem : Mem) (us cs : List Entry) : Prop where
  sizeField : leNat (peek mem (part.virtBase + 8) 4) = part.size
  hdrSpace : 16 ≤ cachedHdr part
  order : freeUncached part mem ≤ freeCached part mem
  uncached : Chain mem (part.virtBase + 32) us (freeUncached part mem)
  cached : Down mem (cachedHdr part) (part.virtBase + part.size) cs (freeCached part mem)
  items : (us ++ cs).map Entry.item |>.Nodup

section
variable {part : Partition} {mem mem' : Mem} {us us' cs cs' : List Entry} {item n : Nat}

theorem Valid.unique (h : Valid part mem us cs) (h' : Valid part mem us' cs') : us = us' ∧ cs = cs' :=
  ⟨h.uncached.unique h'.uncached, h.cached.unique h'.cached⟩

theorem Valid.bounds (h : Valid part mem us cs) : part.virtBase + 32 ≤ freeUncached part mem ∧
    freeUncached part mem ≤ freeCached part mem ∧ freeCached part mem ≤ part.virtBase + part.size ∧
    part.virtBase + part.size < 2 ^ 64 := by
  have := part.mapped
  exact ⟨h.uncached.le, h.order, h.cached.le, by omega⟩

/-! ### Items -/

/-- Where the data of the uncached entries from an address on stands. -/
def uncachedItems : Nat → List Entry → List (Nat × Nat × Nat)
  | _, [] => []
  | e, x :: xs => (x.item, e + 16 + x.paddingHdr, x.len) :: uncachedItems (e + 16 + x.paddingHdr + x.size) xs

/-- Where the data of the cached entries below an address stands. -/
def cachedItems (a : Nat) : Nat → List Entry → List (Nat × Nat × Nat)
  | _, [] => []
  | top, x :: xs => (x.item, top - a - x.size, x.len) :: cachedItems a (top - a - x.size) xs

/-- The items of the partition with their addresses and lengths. -/
def itemsOf (part : Partition) (us cs : List Entry) : List (Nat × Nat × Nat) :=
  uncachedItems (part.virtBase + 32) us ++ cachedItems (cachedHdr part) (part.virtBase + part.size) cs

theorem map_uncachedItems (e : Nat) (xs : List Entry) : (uncachedItems e xs).map fst = xs.map Entry.item := by
  induction xs generalizing e with
  | nil => rfl
  | cons x xs ih => exact congrArg _ (ih _)

theorem map_cachedItems (k top : Nat) (xs : List Entry) : (cachedItems k top xs).map fst = xs.map Entry.item := by
  induction xs generalizing top with
  | nil => rfl
  | cons x xs ih => exact congrArg _ (ih _)

theorem map_itemsOf (part : Partition) (us cs : List Entry) :
    (itemsOf part us cs).map fst = (us ++ cs).map Entry.item := by
  rw [itemsOf, map_append, map_append, map_uncachedItems, map_cachedItems]

/-! ### Where everything stands -/

/-- Two ranges of bytes, as addresses and lengths, have no byte in common. -/
def Separate (r q : Nat × Nat) : Prop := r.1 + r.2 ≤ q.1 ∨ q.1 + q.2 ≤ r.1

/-- The headers of the uncached entries from an address on. -/
def uncachedHeaders : Nat → List Entry → List Nat
  | _, [] => []
  | e, x :: xs => e :: uncachedHeaders (e + 16 + x.paddingHdr + x.size) xs

/-- The headers of the cached entries below an address. -/
def cachedHeaders (a : Nat) : Nat → List Entry → List Nat
  | _, [] => []
  | top, x :: xs => (top - a) :: cachedHeaders a (top - a - x.size) xs

def headersOf (part : Partition) (us cs : List Entry) : List Nat :=
  uncachedHeaders (part.virtBase + 32) us ++ cachedHeaders (cachedHdr part) (part.virtBase + part.size) cs

theorem Entry.len_le (x : Entry) : x.len ≤ x.size := sub_le ..

/-- Ranges between two addresses that are apart from each other. -/
structure Placed (lo hi : Nat) (rs : List (Nat × Nat)) : Prop where
  within : ∀ r ∈ rs, lo ≤ r.1 ∧ r.1 + r.2 ≤ hi
  separate : rs.Pairwise Separate

/-- The ranges of headers and items. -/
def ranges (headers : List Nat) (items : List (Nat × Nat × Nat)) : List (Nat × Nat) :=
  headers.map (·, 16) ++ items.map snd

theorem perm_ranges (e : Nat) (p : Nat × Nat × Nat) (hs : List Nat) (is : List (Nat × Nat × Nat)) :
    (e, 16) :: p.2 :: ranges hs is ~ ranges (e :: hs) (p :: is) := perm_middle.symm.cons _

section
variable {e top last lo mid hi k : Nat} {xs : List Entry} {rs qs : List (Nat × Nat)}

theorem Placed.perm (h : Placed lo hi rs) (hperm : rs ~ qs) : Placed lo hi qs :=
  ⟨fun r hr => h.within r (hperm.mem_iff.mpr hr), hperm.pairwise h.separate fun hsep => Or.symm hsep⟩

theorem Placed.append (hlow : Placed lo mid rs) (hhigh : Placed mid hi qs) (hle : lo ≤ mid) (hle' : mid ≤ hi) :
    Placed lo hi (rs ++ qs) := by
  refine ⟨fun r hr => ?_, pairwise_append.mpr ⟨hlow.separate, hhigh.separate, fun r hr q hq => ?_⟩⟩
  · rcases mem_append.mp hr with hr | hr
    · have := hlow.within r hr
      omega
    · have := hhigh.within r hr
      omega
  · exact .inl (le_trans (hlow.within r hr).2 (hhigh.within q hq).1)

theorem placed_pair {r q : Nat × Nat} (hr : lo ≤ r.1 ∧ r.1 + r.2 ≤ hi) (hq : lo ≤ q.1 ∧ q.1 + q.2 ≤ hi)
    (hsep : Separate r q) : Placed lo hi [r, q] := by
  refine ⟨?_, pairwise_pair.mpr hsep⟩
  rintro p (_ | ⟨_, _ | ⟨_, hnil⟩⟩)
  exacts [hr, hq, absurd hnil not_mem_nil]

theorem Chain.placed (h : Chain mem e xs last) : Placed e last (ranges (uncachedHeaders e xs) (uncachedItems e xs)) := by
  induction xs generalizing e with
  | nil => exact ⟨nofun, .nil⟩
  | cons x xs ih =>
    have hlen := x.len_le
    have hpair : Placed e (e + 16 + x.paddingHdr + x.size) [(e, 16), (e + 16 + x.paddingHdr, x.len)] := by
      refine placed_pair ?_ ?_ (.inl ?_) <;> dsimp only <;> omega
    exact (hpair.append (ih h.2) (by omega) h.2.le).perm (perm_ranges _ (x.item, _) ..)

theorem Down.placed (h : Down mem k top xs last) (hk : 16 ≤ k) :
    Placed last top (ranges (cachedHeaders k top xs) (cachedItems k top xs)) := by
  induction xs generalizing top with
  | nil => exact ⟨nofun, .nil⟩
  | cons x xs ih =>
    have hlen := x.len_le
    have hroom := h.1
    have hpair : Placed (top - k - x.size) top [(top - k, 16), (top - k - x.size, x.len)] := by
      refine placed_pair ?_ ?_ (.inr ?_) <;> dsimp only <;> omega
    exact ((ih h.2.2).append hpair h.2.2.le (by omega)).perm (perm_append_comm.trans (perm_ranges _ (x.item, _) ..))

end

theorem Valid.placed (h : Valid part mem us cs) :
    (ranges (headersOf part us cs) (itemsOf part us cs)).Pairwise Separate := by
  have hhigh := h.cached.placed h.hdrSpace
  have hlow : Placed (part.virtBase + 32) (freeCached part mem) (ranges (uncachedHeaders ..) (uncachedItems _ us)) :=
    ⟨fun r hr => (h.uncached.placed.within r hr).imp_right fun hle => le_trans hle h.order, h.uncached.placed.separate⟩
  refine ((hlow.append hhigh (le_trans h.uncached.le h.order) h.cached.le).perm ?_).separate
  unfold ranges headersOf itemsOf
  rw [map_append, map_append, append_assoc, append_assoc]
  exact (perm_append_comm_assoc ..).append_left _

/-! ### The walk over the uncached entries -/

theorem EntryAt.next {e last : Nat} {x : Entry} (h : EntryAt mem e x) (hle : e + 16 + x.paddingHdr + x.size ≤ last)
    (hlast : last < 2 ^ 64) : entryNext mem e = e + 16 + x.paddingHdr + x.size := by
  unfold entryNext
  rw [h.paddingHdr, h.size, ptrAdd_of_lt (p := e) (by unfold sizeofEntry; omega),
    ptrAdd_of_lt (k := x.paddingHdr) (by unfold sizeofEntry; omega), ptrAdd_of_lt (by unfold sizeofEntry; omega)]
  rfl

/-- The loop goes on at an entry. -/
theorem entry_more {e last : Nat} (x : Entry) (hle : e + 16 + x.paddingHdr + x.size ≤ last) (hlast : last < 2 ^ 64) :
    e < last ∧ ptrAdd e sizeofEntry < last := by
  have hdata := x.holdsData
  rw [ptrAdd_of_lt (by unfold sizeofEntry; omega)]
  unfold sizeofEntry
  omega

/-- An item that no entry has: the walk ends behind the last entry. -/
theorem Chain.listEnds {e last : Nat} {xs : List Entry} (h : Chain mem e xs last) (hlast : last < 2 ^ 64)
    (hno : item ∉ xs.map Entry.item) : ListEnds mem item last e last := by
  induction xs generalizing e with
  | nil =>
    obtain rfl : e = last := h
    exact .done fun hmore => absurd hmore.1 (lt_irrefl _)
  | cons x xs ih =>
    have hle := h.2.le
    have hmore := entry_more x hle hlast
    have hnext := h.1.next hle hlast
    rw [map_cons, mem_cons, not_or] at hno
    refine .next hmore.1 hmore.2 h.1.canary (fun hitem => hno.1 (hitem.symm.trans h.1.item)) (by omega) ?_
    rw [hnext]
    exact ih h.2 hno.2

/-- An item that an entry has: the walk ends there. -/
theorem Chain.walk_hit {e last i a len : Nat} {xs : List Entry} (h : Chain mem e xs last) (hlast : last < 2 ^ 64)
    (hnodup : (xs.map Entry.item).Nodup) (hmem : (i, a, len) ∈ uncachedItems e xs) (hn : last - e < n) :
    ∃ e' x, (walk (uncachedRound mem i last) n e).res = .ok (true, e') ∧ EntryAt mem e' x ∧
      a = e' + 16 + x.paddingHdr ∧ len = x.len ∧ e ≤ e' ∧ a + x.size ≤ last := by
  induction xs generalizing e n with
  | nil => cases hmem
  | cons x xs ih =>
    have hle := h.2.le
    have hmore := entry_more x hle hlast
    have hnext := h.1.next hle hlast
    rw [map_cons, nodup_cons] at hnodup
    obtain ⟨n, rfl⟩ : ∃ k, n = k + 1 := ⟨n - 1, by omega⟩
    rw [walk_res, uncachedRound_res, if_pos hmore, if_neg (not_not.mpr h.1.canary)]
    rcases mem_cons.mp hmem with heq | hrest
    · cases heq
      rw [if_pos h.1.item]
      exact ⟨e, x, rfl, h.1, rfl, rfl, le_rfl, hle⟩
    · have hne : entryItem mem e ≠ i := by
        intro hitem
        have hsame : x.item = i := h.1.item.symm.trans hitem
        exact hnodup.1 (hsame ▸ map_uncachedItems .. ▸ mem_map_of_mem hrest)
      rw [if_neg hne, if_pos (by omega), hnext]
      obtain ⟨e', y, hres, hat, ha, hlen, hge, hfit⟩ := ih (n := n) h.2 hnodup.2 hrest (by omega)
      exact ⟨e', y, hres, hat, ha, hlen, by omega, hfit⟩

/-! ### The walk over the cached entries -/

theorem ptrSub_of_le {p k : Nat} (hp : p < 2 ^ 64) (h : k ≤ p) : ptrSub p k = p - k := by
  unfold ptrSub
  omega

theorem ptrSub_of_lt {p k : Nat} (hk : k < 2 ^ 64) (h : p < k) : ptrSub p k = p + 2 ^ 64 - k := by
  unfold ptrSub
  omega

theorem cachedRound_res {e last : Nat} {x : Entry} (hx : EntryAt mem e x) (hmore : last < e) :
    (cachedRound mem item last part.cacheline e).res = if x.item = item then .ok .hit
      else if ptrSub (ptrSub e x.size) (cachedHdr part) < e then .ok (.next (ptrSub (ptrSub e x.size) (cachedHdr part)))
      else .error (.errno .einval) := by
  have hnext : (cachedEntryNext mem e part.cacheline).res = .ok (ptrSub (ptrSub e x.size) (cachedHdr part)) := by
    rw [← hx.size]
    rfl
  unfold cachedRound
  rw [round_res hnext, if_pos (by simpa using hmore), if_neg (not_not.mpr hx.canary), hx.item]
  simp

theorem cachedRound_done {e last : Nat} (hmore : e ≤ last) :
    (cachedRound mem item last part.cacheline e).res = .ok .done := by
  unfold cachedRound round
  rw [if_neg (by simpa using hmore)]
  rfl

theorem Down.walk_hit {top last i a len : Nat} {xs : List Entry} (h : Down mem (cachedHdr part) top xs last)
    (htop : top < 2 ^ 64) (hhdr : 16 ≤ cachedHdr part) (hnodup : (xs.map Entry.item).Nodup)
    (hmem : (i, a, len) ∈ cachedItems (cachedHdr part) top xs) (hn : top - cachedHdr part - last < n) :
    ∃ e x, (walk (cachedRound mem i last part.cacheline) n (top - cachedHdr part)).res = .ok (true, e) ∧ EntryAt mem e x ∧
      a + x.size = e ∧ len = x.len ∧ last ≤ a ∧ e + cachedHdr part ≤ top := by
  induction xs generalizing top n with
  | nil => cases hmem
  | cons x xs ih =>
    have hle := h.2.2.le
    have hroom := h.1
    have hdata := x.holdsData
    rw [map_cons, nodup_cons] at hnodup
    obtain ⟨n, rfl⟩ : ∃ k, n = k + 1 := ⟨n - 1, by omega⟩
    rw [walk_res, cachedRound_res h.2.1 (by omega)]
    rcases mem_cons.mp hmem with heq | hrest
    · cases heq
      rw [if_pos rfl]
      exact ⟨_, x, rfl, h.2.1, by omega, rfl, hle, by omega⟩
    · have hne : x.item ≠ i := fun hsame => hnodup.1 (hsame ▸ map_cachedItems .. ▸ mem_map_of_mem hrest)
      -- there is an entry below, so the next address does not wrap
      have hbelow : cachedHdr part ≤ top - cachedHdr part - x.size := by
        cases xs with
        | nil => cases hrest
        | cons y ys =>
          have := h.2.2.1
          omega
      rw [if_neg hne, ptrSub_of_le (by omega) (show x.size ≤ _ by omega), ptrSub_of_le (by omega) hbelow,
        if_pos (by omega)]
      obtain ⟨e, y, hres, hat, ha, hlen, hge, hfit⟩ := ih (n := n) h.2.2 (by omega) hnodup.2 hrest (by omega)
      exact ⟨e, y, hres, hat, ha, hlen, hge, by omega⟩

theorem Down.walk_miss {top last : Nat} {xs : List Entry} (h : Down mem (cachedHdr part) top xs last)
    (htop : top < 2 ^ 64) (hhdr : 16 ≤ cachedHdr part) (hfirst : cachedHdr part ≤ top)
    (hno : item ∉ xs.map Entry.item) (e : Nat) :
    (walk (cachedRound mem item last part.cacheline) n (top - cachedHdr part)).res ≠ .ok (true, e) := by
  induction xs generalizing top n with
  | nil =>
    obtain rfl : top = last := h
    cases n with
    | zero =>
      intro hres
      cases hres
    | succ n =>
      rw [walk_res, cachedRound_done (by omega)]
      intro hres
      cases hres
  | cons x xs ih =>
    have hle := h.2.2.le
    have hroom := h.1
    have hdata := x.holdsData
    rw [map_cons, mem_cons, not_or] at hno
    cases n with
    | zero =>
      intro hres
      cases hres
    | succ n =>
      rw [walk_res, cachedRound_res h.2.1 (by omega), if_neg (Ne.symm hno.1), ptrSub_of_le (by omega)
        (show x.size ≤ _ by omega)]
      by_cases hbelow : cachedHdr part ≤ top - cachedHdr part - x.size
      · rw [ptrSub_of_le (by omega) hbelow, if_pos (by omega)]
        exact ih h.2.2 (by omega) hbelow hno.2
      · rw [ptrSub_of_lt (by omega) (by omega), if_neg (by omega)]
        intro hres
        cases hres

/-! ### Looking an item up -/

theorem entrySize_res {e : Nat} {x : Entry} (hx : EntryAt mem e x) (hlt : x.size < part.size) :
    (entrySize part mem e).res = .ok x.len := by
  unfold entrySize
  rw [res_bind_of_ok (a := x.size) (congrArg Except.ok hx.size),
    res_bind_of_ok (a := x.paddingData) (congrArg Except.ok hx.paddingData), if_pos ⟨hlt, x.holdsData⟩]
  rfl

theorem uncachedEntryToItem_res {e : Nat} {x : Entry} (hx : EntryAt mem e x) (hlt : e + 16 + x.paddingHdr < 2 ^ 64) :
    (uncachedEntryToItem mem e).res = .ok (e + 16 + x.paddingHdr) := by
  unfold uncachedEntryToItem
  rw [res_bind_of_ok (a := x.paddingHdr) (congrArg Except.ok hx.paddingHdr), res_pure,
    ptrAdd_of_lt (p := e) (by unfold sizeofEntry; omega), ptrAdd_of_lt (by unfold sizeofEntry; omega)]
  rfl

theorem cachedEntryToItem_res {e : Nat} {x : Entry} (hx : EntryAt mem e x) (he : e < 2 ^ 64) (hle : x.size ≤ e) :
    (cachedEntryToItem mem e).res = .ok (e - x.size) := by
  unfold cachedEntryToItem
  rw [res_bind_of_ok (a := x.size) (congrArg Except.ok hx.size), res_pure, ptrSub_of_le he hle]

section
variable (h : Valid part mem us cs)
include h

theorem getPrivate_uncached {a : Nat}
    (hmem : (item, a, n) ∈ uncachedItems (part.virtBase + 32) us) : (qcomSmemGetPrivate part mem item).res = .ok (a, n) := by
  obtain ⟨hlo, hmid, hhi, hlt⟩ := h.bounds
  have hnodup : (us.map Entry.item).Nodup := (nodup_append.mp (map_append ▸ h.items)).1
  obtain ⟨e, x, hwalk, hx, rfl, rfl, hge, hfit⟩ :=
    h.uncached.walk_hit (n := part.size) (by omega) hnodup hmem (by omega)
  have hlen := x.len_le
  unfold qcomSmemGetPrivate
  rw [res_bind_of_ok (a := freeUncached part mem) rfl, res_bind_of_ok (a := freeCached part mem) rfl,
    offsets_pass (by omega) hmid hhi, if_neg Bool.false_ne_true, first_eq, res_bind_of_ok hwalk]
  dsimp only
  rw [if_pos rfl, res_bind_of_ok (entrySize_res hx (by omega)), res_bind_of_ok (uncachedEntryToItem_res hx (by omega)),
    inPartitionRange_of_le (by omega) (by omega) (by omega)]
  rfl

/-- A look-up that does not find the item among the uncached entries goes on with the first cached
one. -/
theorem getPrivate_miss (hno : item ∉ us.map Entry.item) :
    (qcomSmemGetPrivate part mem item).res = if cs = [] then .error (.errno .enoent)
      else (walk (cachedRound mem item (freeCached part mem) part.cacheline) part.size
          (part.virtBase + part.size - cachedHdr part) >>= fun p =>
        if p.1 then do
          let size ← entrySize part mem p.2
          let itemPtr ← cachedEntryToItem mem p.2
          if !inPartitionRange itemPtr size (freeCached part mem) p.2 then failWith .einval else pure (itemPtr, size)
        else if p.2 < part.virtBase then failWith .einval
        else failWith .enoent : Acc (Nat × Nat)).res := by
  obtain ⟨hlo, hmid, hhi, hlt⟩ := h.bounds
  have hwalk := walk_of_listEnds (n := part.size) (h.uncached.listEnds (by omega) hno) (by omega)
  unfold qcomSmemGetPrivate
  rw [res_bind_of_ok (a := freeUncached part mem) rfl, res_bind_of_ok (a := freeCached part mem) rfl,
    offsets_pass (by omega) hmid hhi, if_neg Bool.false_ne_true, first_eq, res_bind_of_ok hwalk]
  dsimp only
  rw [if_neg Bool.false_ne_true, if_neg (lt_irrefl _), end_eq]
  have hcached := h.cached
  cases cs with
  | nil =>
    rw [if_pos (Eq.symm hcached), if_pos rfl]
    rfl
  | cons x xs =>
    have hroom := hcached.1
    have hle := hcached.2.2.le
    have hhdr := h.hdrSpace
    have hfirst : (phdrToFirstCachedEntry mem part.virtBase part.cacheline).res =
        .ok (part.virtBase + part.size - cachedHdr part) := by
      have hval : ptrSub (ptrAdd part.virtBase part.size) (align sizeofEntry part.cacheline) =
          part.virtBase + part.size - cachedHdr part := by
        rw [end_eq]
        exact ptrSub_of_le hlt (le_trans (Nat.le_add_right _ _) hroom)
      unfold phdrToFirstCachedEntry
      rw [res_bind_of_ok (a := part.size) (congrArg Except.ok h.sizeField), res_pure, hval]
    have hregion : inPartitionRange (freeCached part mem) 0 (freeUncached part mem) (part.virtBase + part.size) :=
      inPartitionRange_of_le hlt hmid (by omega)
    have hentry : inPartitionRange (part.virtBase + part.size - cachedHdr part) sizeofEntry (freeCached part mem)
        (part.virtBase + part.size) :=
      inPartitionRange_of_le hlt (by omega) (by unfold sizeofEntry; omega)
    rw [if_neg (by omega), if_neg (cons_ne_nil _ _), res_bind_of_ok hfirst, hregion, hentry]
    rfl

theorem getPrivate_cached {a : Nat}
    (hmem : (item, a, n) ∈ cachedItems (cachedHdr part) (part.virtBase + part.size) cs) :
    (qcomSmemGetPrivate part mem item).res = .ok (a, n) := by
  obtain ⟨hlo, hmid, hhi, hlt⟩ := h.bounds
  have hnodup := nodup_append.mp (map_append ▸ h.items)
  have hne : cs ≠ [] := by
    rintro rfl
    cases hmem
  have hno : item ∉ us.map Entry.item := fun hin => hnodup.2.2 item hin item (map_cachedItems .. ▸ mem_map_of_mem hmem) rfl
  have hhdr := h.hdrSpace
  obtain ⟨e, x, hwalk, hx, rfl, rfl, hge, hfit⟩ :=
    h.cached.walk_hit (n := part.size) hlt hhdr hnodup.2.1 hmem (by omega)
  have hlen := x.len_le
  have hback : a + x.size - x.size = a := Nat.add_sub_cancel ..
  rw [getPrivate_miss h hno, if_neg hne, res_bind_of_ok hwalk]
  rw [if_pos rfl, res_bind_of_ok (entrySize_res hx (by omega)),
    res_bind_of_ok (cachedEntryToItem_res hx (by omega) (by omega)), hback,
    inPartitionRange_of_le (by omega) hge (by omega)]
  rfl

theorem getPrivate_none (hno : item ∉ (us ++ cs).map Entry.item) (r : Nat × Nat) :
    (qcomSmemGetPrivate part mem item).res ≠ .ok r := by
  obtain ⟨hlo, hmid, hhi, hlt⟩ := h.bounds
  rw [map_append, mem_append, not_or] at hno
  rw [getPrivate_miss h hno.1]
  split
  · intro hres
    cases hres
  · next hne =>
    intro hres
    obtain ⟨⟨hit, e⟩, hwalk, hres, -⟩ := res_bind_ok hres
    have hfirst : cachedHdr part ≤ part.virtBase + part.size := by
      obtain ⟨x, xs, rfl⟩ := exists_cons_of_ne_nil hne
      exact le_trans (Nat.le_add_right _ _) h.cached.1
    have hmiss := h.cached.walk_miss (n := part.size) hlt h.hdrSpace hfirst hno.2 e
    cases hit with
    | true => exact hmiss hwalk
    | false =>
      rw [if_neg Bool.false_ne_true] at hres
      split at hres <;> cases hres

/-- A look-up finds exactly the items of the lists. -/
theorem getPrivate_iff {a : Nat} :
    (qcomSmemGetPrivate part mem item).res = .ok (a, n) ↔ (item, a, n) ∈ itemsOf part us cs := by
  have hfound : ∀ b k, (item, b, k) ∈ itemsOf part us cs → (qcomSmemGetPrivate part mem item).res = .ok (b, k) :=
    fun b k hmem => (mem_append.mp hmem).elim (getPrivate_uncached h) (getPrivate_cached h)
  refine ⟨fun hres => ?_, hfound a n⟩
  by_cases hin : item ∈ (us ++ cs).map Entry.item
  · rw [← map_itemsOf part] at hin
    obtain ⟨⟨i, b, k⟩, hmem, rfl⟩ := mem_map.mp hin
    cases hres.symm.trans (hfound b k hmem)
    exact hmem
  · exact absurd hres (getPrivate_none h hin (a, n))

end

/-! ### Allocating an item -/

variable {size : Nat}

/-- The address behind a new entry, which the driver compares with the cached region without
looking whether the sum wraps. -/
def allocEnd (part : Partition) (mem : Mem) (size : Nat) : Nat := ptrAdd (freeUncached part mem) (allocSize size)

theorem allocPrivate_existing (h : Valid part mem us cs) (hin : item ∈ us.map Entry.item) :
    (qcomSmemAllocPrivate part mem item size).res = .error (.errno .eexist) := by
  obtain ⟨hlo, hmid, hhi, hlt⟩ := h.bounds
  have hnodup : (us.map Entry.item).Nodup := (nodup_append.mp (map_append ▸ h.items)).1
  rw [← map_uncachedItems (part.virtBase + 32)] at hin
  obtain ⟨⟨i, a, len⟩, hmem, rfl⟩ := mem_map.mp hin
  obtain ⟨e, x, hwalk, -⟩ := h.uncached.walk_hit (n := part.size) (by omega) hnodup hmem (by omega)
  unfold qcomSmemAllocPrivate
  rw [res_bind_of_ok (a := freeUncached part mem) rfl, res_bind_of_ok (a := freeCached part mem) rfl,
    offsets_pass (by omega) hmid hhi, if_neg Bool.false_ne_true, first_eq, res_bind_of_ok hwalk]
  rfl

theorem allocPrivate_new (size : Nat) (h : Valid part mem us cs) (hno : item ∉ us.map Entry.item) :
    (qcomSmemAllocPrivate part mem item size).res =
      if freeCached part mem < allocEnd part mem size then .error (.errno .enospc)
      else (writeEntry mem part.virtBase (freeUncached part mem) item size).res := by
  obtain ⟨hlo, hmid, hhi, hlt⟩ := h.bounds
  have hwalk := walk_of_listEnds (n := part.size) (h.uncached.listEnds (by omega) hno) (by omega)
  unfold qcomSmemAllocPrivate
  rw [res_bind_of_ok (a := freeUncached part mem) rfl, res_bind_of_ok (a := freeCached part mem) rfl,
    offsets_pass (by omega) hmid hhi, if_neg Bool.false_ne_true, first_eq, res_bind_of_ok hwalk]
  dsimp only
  rw [if_neg Bool.false_ne_true, if_neg (lt_irrefl _)]
  unfold allocEnd
  split <;> rfl

/-- The memory with the header of a new entry. -/
def headerWritten (mem : Mem) (hdr item size : Nat) : Mem :=
  let mem := poke mem hdr (leBytes 2 smemPrivateCanary)
  let mem := poke mem (hdr + 2) (leBytes 2 item)
  let mem := poke mem (hdr + 4) (leBytes 4 (align size 8))
  let mem := poke mem (hdr + 8) (leBytes 2 (ptrSub (leNat (peek mem (hdr + 4) 4)) size))
  poke mem (hdr + 10) (leBytes 2 0)

/-- The memory with the new free offset too. -/
def entryWritten (mem : Mem) (phdr hdr item size : Nat) : Mem :=
  let mem := headerWritten mem hdr item size
  poke mem (phdr + 12) (leBytes 4 (leNat (peek mem (phdr + 12) 4) + allocSize size))

theorem writeEntry_res (mem : Mem) (phdr hdr item size : Nat) :
    (writeEntry mem phdr hdr item size).res = .ok (entryWritten mem phdr hdr item size) := rfl

theorem headerWritten_outside {hdr i : Nat} (h : i < hdr ∨ hdr + 12 ≤ i) : headerWritten mem hdr item size i = mem i := by
  unfold headerWritten
  rw [poke_outside (by rw [length_leBytes]; omega), poke_outside (by rw [length_leBytes]; omega),
    poke_outside (by rw [length_leBytes]; omega), poke_outside (by rw [length_leBytes]; omega),
    poke_outside (by rw [length_leBytes]; omega)]

theorem leNat_peek_poke (mem : Mem) (off k x : Nat) : leNat (peek (poke mem off (leBytes k x)) off k) = x % 256 ^ k := by
  have hself := peek_poke_self mem off (leBytes k x)
  rw [length_leBytes] at hself
  rw [hself, leNat_leBytes]

theorem headerWritten_size (mem : Mem) (hdr item size : Nat) :
    leNat (peek (headerWritten mem hdr item size) (hdr + 4) 4) = align size 8 % 2 ^ 32 := by
  unfold headerWritten
  rw [peek_poke_disjoint (.inl (by omega)), peek_poke_disjoint (.inl (by omega)), leNat_peek_poke]
  rfl

theorem headerWritten_entry {hdr : Nat} {x : Entry} (hsize : align size 8 = x.size) (hle : size ≤ x.size)
    (hpad : x.paddingData = x.size - size) (hhdr : x.paddingHdr = 0) :
    EntryAt (headerWritten mem hdr x.item size) hdr x := by
  have hlt := x.size_lt
  have hpadlt := x.paddingData_lt
  refine ⟨?_, ?_, ?_, ?_, ?_⟩
  · unfold headerWritten entryCanary
    rw [peek_poke_disjoint (.inl (by omega)), peek_poke_disjoint (.inl (by omega)),
      peek_poke_disjoint (.inl (by omega)), peek_poke_disjoint (.inl (by omega)), leNat_peek_poke]
    rfl
  · unfold headerWritten entryItem
    rw [peek_poke_disjoint (.inl (by omega)), peek_poke_disjoint (.inl (by omega)),
      peek_poke_disjoint (.inl (by omega)), leNat_peek_poke]
    exact mod_eq_of_lt x.item_lt
  · rw [headerWritten_size, hsize]
    exact mod_eq_of_lt hlt
  · unfold headerWritten
    rw [peek_poke_disjoint (.inl (by omega)), leNat_peek_poke, leNat_peek_poke, hsize,
      mod_eq_of_lt (show x.size < 256 ^ 4 from hlt), ptrSub_of_le (by omega) hle, ← hpad]
    exact mod_eq_of_lt hpadlt
  · unfold headerWritten
    rw [leNat_peek_poke, hhdr]
    rfl

section
variable {phdr hdr : Nat}

theorem entryWritten_outside {i : Nat} (h : i < hdr ∨ hdr + 12 ≤ i) (h' : i < phdr + 12 ∨ phdr + 16 ≤ i) :
    entryWritten mem phdr hdr item size i = mem i := by
  unfold entryWritten
  rw [poke_outside (by rw [length_leBytes]; omega), headerWritten_outside h]

theorem entryWritten_offset (h : phdr + 16 ≤ hdr) : leNat (peek (entryWritten mem phdr hdr item size) (phdr + 12) 4) =
      (leNat (peek mem (phdr + 12) 4) + allocSize size) % 2 ^ 32 := by
  have hkept : peek (headerWritten mem hdr item size) (phdr + 12) 4 = peek mem (phdr + 12) 4 :=
    peek_congr fun i _ _ => headerWritten_outside (.inl (by omega))
  unfold entryWritten
  rw [leNat_peek_poke, hkept]
  rfl

theorem entryWritten_above (h : phdr + 16 ≤ hdr) {i : Nat} (hi : hdr ≤ i) :
    entryWritten mem phdr hdr item size i = headerWritten mem hdr item size i := by
  exact poke_outside (by rw [length_leBytes]; omega)

end

theorem freeUncached_eq (h : part.virtBase ≤ freeUncached part mem) :
    freeUncached part mem = part.virtBase + leNat (peek mem (part.virtBase + 12) 4) := by
  have hlt := leNat_lt (peek mem (part.virtBase + 12) 4)
  rw [length_peek] at hlt
  unfold freeUncached ptrAdd at h ⊢
  omega

/-- The entry of a new item. -/
def newEntry (item size : Nat) (hitem : item < 2 ^ 16) (hpos : 1 ≤ size) (hsize : (size + 7) / 8 * 8 < 2 ^ 32) : Entry :=
  ⟨item, (size + 7) / 8 * 8, (size + 7) / 8 * 8 - size, 0, hitem, hsize, by decide, by omega, by omega⟩

theorem len_newEntry {hitem : item < 2 ^ 16} {hpos : 1 ≤ size} {hsize : (size + 7) / 8 * 8 < 2 ^ 32} :
    (newEntry item size hitem hpos hsize).len = size := by
  unfold Entry.len newEntry
  dsimp only
  omega

theorem allocSize_eq (h : size + 23 < 2 ^ 64) : allocSize size = 16 + (size + 7) / 8 * 8 := by
  unfold allocSize sizeofEntry
  rw [align_eight (by omega)]
  omega

/-- Where there is room for it, a new entry is put behind the others. -/
theorem entryWritten_valid (h : Valid part mem us cs) (hitem : item < 2 ^ 16) (hpos : 1 ≤ size)
    (hsize : (size + 7) / 8 * 8 < 2 ^ 32) (hno : item ∉ (us ++ cs).map Entry.item)
    (hfit : freeUncached part mem + 16 + (size + 7) / 8 * 8 ≤ freeCached part mem) :
    Valid part (entryWritten mem part.virtBase (freeUncached part mem) item size)
      (us ++ [newEntry item size hitem hpos hsize]) cs := by
  obtain ⟨hlo, hmid, hhi, hlt⟩ := h.bounds
  have hsizelt := part.size_lt
  have hoff := freeUncached_eq (le_trans (Nat.le_add_right _ 32) hlo)
  have hfree : freeUncached part (entryWritten mem part.virtBase (freeUncached part mem) item size) =
      freeUncached part mem + 16 + (size + 7) / 8 * 8 := by
    rw [freeUncached, entryWritten_offset (by omega), allocSize_eq (by omega), mod_eq_of_lt (by omega),
      ptrAdd_of_lt (by omega)]
    omega
  have hcached : freeCached part (entryWritten mem part.virtBase (freeUncached part mem) item size) = freeCached part mem := by
    unfold freeCached
    rw [peek_congr fun i _ _ => entryWritten_outside (.inl (by omega)) (.inr (by omega))]
  refine ⟨?_, h.hdrSpace, ?_, ?_, ?_, ?_⟩
  · rw [peek_congr fun i _ _ => entryWritten_outside (.inl (by omega)) (.inl (by omega))]
    exact h.sizeField
  · rw [hfree, hcached]
    exact hfit
  · rw [hfree, Chain.append]
    refine ⟨freeUncached part mem, ?_, ?_, ?_⟩
    · exact h.uncached.frame fun i _ _ => entryWritten_outside (.inl (by omega)) (.inr (by omega))
    · have hnew : EntryAt (headerWritten mem (freeUncached part mem) item size) (freeUncached part mem)
          (newEntry item size hitem hpos hsize) :=
        headerWritten_entry (x := newEntry item size hitem hpos hsize) (align_eight (by omega))
          (by unfold newEntry; dsimp only; omega) rfl rfl
      exact hnew.frame fun i hi _ => entryWritten_above (by omega) hi
    · rfl
  · rw [hcached]
    refine h.cached.frame h.hdrSpace fun i _ _ => entryWritten_outside (.inr (by omega)) (.inr (by omega))
  · have hperm : ((us ++ [newEntry item size hitem hpos hsize] ++ cs).map Entry.item).Perm
        (item :: (us ++ cs).map Entry.item) := by
      rw [append_assoc]
      exact perm_middle.map Entry.item
    rw [hperm.nodup_iff, nodup_cons]
    exact ⟨hno, h.items⟩

end

end Sm8850.Smem
