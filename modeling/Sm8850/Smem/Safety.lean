import Sm8850.Smem.Model

/-! Whatever the partition holds, the two functions end and stay inside it. -/
namespace Sm8850.Smem

open Memory (peek poke leNat leBytes leNat_lt length_peek)
open Run

variable {part : Partition} {mem : Mem} {item size e last n : Nat}

/-- The bytes lie in the partition. -/
def Inside (part : Partition) (addr len : Nat) : Prop :=
  part.virtBase ≤ addr ∧ addr + len ≤ part.virtBase + part.size

def Access.Within (part : Partition) (a : Access) : Prop := Inside part a.addr a.len

def Ends (s : Stop) : Prop := s ≠ .rounds

/-- All accesses are inside, no loop runs out of rounds, and every result satisfies `Q`. -/
def Safe {α : Type} (part : Partition) (m : Acc α) (Q : α → Prop) : Prop := m.Meets (Access.Within part) Ends Q

section
variable {α β : Type} {m : Acc α} {f : α → Acc β} {Q : α → Prop} {R : β → Prop}

theorem safe_pure {a : α} (h : Q a) : Safe part (pure a) Q := meets_pure h

theorem safe_failWith {e : Errno} : Safe part (failWith e : Acc α) Q := by
  refine meets_fail ?_
  rintro ⟨⟩

theorem Safe.bind (hm : Safe part m Q) (hf : ∀ a, Q a → Safe part (f a) R) : Safe part (m >>= f) R := Meets.bind hm hf

theorem safe_readLe {addr len : Nat} (h : Inside part addr len) :
    Safe part (readLe mem addr len) (fun x => x < 256 ^ len) := by
  refine ⟨?_, ?_, ?_⟩
  · intro a ha
    rcases List.mem_singleton.mp ha with rfl
    exact h
  · rintro d ⟨⟩
  · rintro x ⟨⟩
    have := leNat_lt (peek mem addr len)
    rwa [length_peek] at this

theorem safe_writeLe {addr len x : Nat} (h : Inside part addr len) :
    Safe part (writeLe mem addr len x) (fun _ => True) := by
  refine ⟨?_, ?_, fun _ _ => trivial⟩
  · intro a ha
    rcases List.mem_singleton.mp ha with rfl
    exact h
  · rintro d ⟨⟩

end

/-! ### Pointers -/

theorem ptrAdd_of_lt {p k : Nat} (h : p + k < 2 ^ 64) : ptrAdd p k = p + k := Nat.mod_eq_of_lt h

theorem ptrAdd_lt (p k : Nat) : ptrAdd p k < 2 ^ 64 := Nat.mod_lt _ (by decide)

variable {ptr start cached cacheline h hdr : Nat} {more : Bool} {next : Acc Nat} {onward : Nat → Bool}
  {body : Nat → Acc Round}

theorem inPartitionRange_iff {size last : Nat} : inPartitionRange ptr size start last ↔
    start ≤ ptr ∧ ptr ≤ ptrAdd ptr size ∧ ptrAdd ptr size ≤ last := by
  simp [inPartitionRange, and_assoc]

/-- A range that passes the check does not wrap. -/
theorem inPartitionRange_spec {size last : Nat} (_ : ptr < 2 ^ 64) (_ : size < 2 ^ 64)
    (h : inPartitionRange ptr size start last) : start ≤ ptr ∧ ptr + size ≤ last := by
  obtain ⟨h₁, h₂, h₃⟩ := inPartitionRange_iff.mp h
  have hno : ptrAdd ptr size = ptr + size := by
    unfold ptrAdd at h₂ ⊢
    omega
  exact ⟨h₁, hno ▸ h₃⟩

theorem first_eq (part : Partition) : phdrToFirstUncachedEntry part.virtBase = part.virtBase + 32 := by
  have := part.holdsHeader
  have := part.mapped
  exact ptrAdd_of_lt (by unfold sizeofPhdr; omega)

theorem end_eq (part : Partition) : ptrAdd part.virtBase part.size = part.virtBase + part.size := by
  have := part.mapped
  exact ptrAdd_of_lt (by omega)

/-- The two offsets of the header, once they have been checked. -/
theorem offsets_checked (hlast : last < 2 ^ 64)
    (h : ¬ (!inPartitionRange last 0 part.virtBase cached || decide (ptrAdd part.virtBase part.size < cached))) :
    part.virtBase ≤ last ∧ last ≤ cached ∧ cached ≤ part.virtBase + part.size := by
  rw [Bool.or_eq_true, not_or, Bool.not_eq_true', Bool.not_eq_false, decide_eq_true_iff, end_eq] at h
  have := inPartitionRange_spec hlast (by decide) h.1
  omega

theorem inPartitionRange_of_le {size last : Nat} (hlast : last < 2 ^ 64) (h₁ : start ≤ ptr) (h₂ : ptr + size ≤ last) :
    inPartitionRange ptr size start last := by
  rw [inPartitionRange_iff, ptrAdd_of_lt (by omega)]
  omega

theorem offsets_pass (hlo : part.virtBase ≤ last) (hmid : last ≤ cached) (hhi : cached ≤ part.virtBase + part.size) :
    (!inPartitionRange last 0 part.virtBase cached || decide (ptrAdd part.virtBase part.size < cached)) = false := by
  have hmapped := part.mapped
  rw [inPartitionRange_of_le (by omega) hlo hmid, end_eq]
  simpa using hhi

/-! ### Walks -/

theorem safe_round {N : Nat → Prop} (hentry : more → Inside part e 16) (hnext : more → Safe part next N) :
    Safe part (round mem item e more next onward)
      (fun r => (r = .hit → more) ∧ ∀ e', r = .next e' → N e' ∧ onward e' ∧ more) := by
  unfold round
  split
  · next hmore =>
    have hin := hentry hmore
    unfold Inside at hin
    refine (safe_readLe ⟨hin.1, by omega⟩).bind fun canary _ => ?_
    split
    · exact safe_failWith
    · refine (safe_readLe ⟨by omega, by omega⟩).bind fun it _ => ?_
      split
      · refine safe_pure ⟨fun _ => hmore, fun e' h => ?_⟩
        cases h
      · refine (hnext hmore).bind fun e' he' => ?_
        split
        · exact safe_failWith
        · next honward =>
          refine safe_pure ⟨fun h => ?_, fun e'' h => ?_⟩ <;> cases h
          exact ⟨he', by simpa using honward, hmore⟩
  · refine safe_pure ⟨fun h => ?_, fun e' h => ?_⟩ <;> cases h

/-- A walk whose rounds keep an invariant and lower a rank ends. -/
theorem safe_walk {I H : Nat → Prop} (rank : Nat → Nat)
    (hbody : ∀ e, I e → Safe part (body e) (fun r => (r = .hit → H e) ∧ ∀ e', r = .next e' → I e' ∧ rank e' < rank e)) :
    ∀ n e, I e → rank e < n → Safe part (walk body n e) (fun p => I p.2 ∧ (p.1 → H p.2)) := by
  intro n
  induction n with
  | zero => exact nofun
  | succ n ih =>
    intro e he hrank
    refine (hbody e he).bind fun r hr => ?_
    cases r with
    | done => exact safe_pure ⟨he, nofun⟩
    | hit => exact safe_pure ⟨he, fun _ => hr.1 rfl⟩
    | next e' =>
      obtain ⟨he', hlt⟩ := hr.2 e' rfl
      exact ih e' he' (by omega)

theorem safe_uncachedEntryNext (h : Inside part e 16) :
    Safe part (uncachedEntryNext mem e) (fun e' => e' < 2 ^ 64 ∧ (e < e' → e + 16 ≤ e')) := by
  unfold Inside at h
  have := part.mapped
  refine (safe_readLe ⟨by omega, by omega⟩).bind fun paddingHdr hp => ?_
  refine (safe_readLe ⟨by omega, by omega⟩).bind fun size hs => safe_pure ?_
  unfold ptrAdd sizeofEntry
  omega

theorem ptrSub_lt (p k : Nat) : ptrSub p k < 2 ^ 64 := Nat.mod_lt _ (by decide)

theorem safe_cachedEntryNext (h : Inside part e 16) :
    Safe part (cachedEntryNext mem e cacheline) (fun e' => e' < 2 ^ 64) := by
  unfold Inside at h
  refine (safe_readLe ⟨by omega, by omega⟩).bind fun size _ => safe_pure (ptrSub_lt _ _)

/-- Where a walk over the uncached entries is. -/
def UncachedAt (part : Partition) (e : Nat) : Prop := part.virtBase + 32 ≤ e ∧ e < 2 ^ 64

theorem safe_uncachedWalk (hlast : last ≤ part.virtBase + part.size) :
    Safe part (walk (uncachedRound mem item last) part.size (phdrToFirstUncachedEntry part.virtBase))
      (fun p => UncachedAt part p.2 ∧ (p.1 → p.2 + 16 < last)) := by
  have hsize := part.holdsHeader
  have hmapped := part.mapped
  have hmore : ∀ e, UncachedAt part e → (decide (e < last) && decide (ptrAdd e sizeofEntry < last)) →
      e + 16 < last := by
    intro e he h
    simp only [Bool.and_eq_true, decide_eq_true_eq] at h
    unfold UncachedAt at he
    unfold ptrAdd sizeofEntry at h
    omega
  rw [first_eq]
  refine safe_walk (I := UncachedAt part) (H := fun e => e + 16 < last) (fun e => last - e) (fun e he => ?_) _ _ ?_
    (by omega)
  · refine (safe_round (N := fun e' => e' < 2 ^ 64 ∧ (e < e' → e + 16 ≤ e')) (fun h => ?_) (fun h => ?_)).mono
      (fun _ h => h) (fun _ h => h) ?_
    · have := hmore e he h
      unfold UncachedAt at he
      exact ⟨by omega, by omega⟩
    · have := hmore e he h
      unfold UncachedAt at he
      exact safe_uncachedEntryNext ⟨by omega, by omega⟩
    · rintro r ⟨hhit, hnext⟩
      refine ⟨fun h => hmore e he (hhit h), fun e' h => ?_⟩
      obtain ⟨⟨hlt, hstep⟩, honward, hm⟩ := hnext e' h
      have hbig := hstep (by simpa using honward)
      have := hmore e he hm
      unfold UncachedAt at he ⊢
      omega
  · unfold UncachedAt
    omega

/-- Where a walk over the cached entries is. -/
def CachedAt (part : Partition) (e : Nat) : Prop := e + 16 ≤ part.virtBase + part.size

theorem safe_cachedWalk (hlast : part.virtBase ≤ last) (he : CachedAt part e) :
    Safe part (walk (cachedRound mem item last cacheline) part.size e)
      (fun p => CachedAt part p.2 ∧ (p.1 → last < p.2)) := by
  refine safe_walk (I := CachedAt part) (H := fun e => last < e) (fun e => e - last) (fun e he => ?_) _ _ he ?_
  · refine (safe_round (N := fun e' => e' < 2 ^ 64) (fun h => ?_) (fun h => ?_)).mono
      (fun _ h => h) (fun _ h => h) ?_
    · have : last < e := by simpa using h
      exact ⟨by omega, he⟩
    · have : last < e := by simpa using h
      exact safe_cachedEntryNext ⟨by omega, he⟩
    · rintro r ⟨hhit, hnext⟩
      refine ⟨fun h => by simpa using hhit h, fun e' h => ?_⟩
      obtain ⟨-, honward, hm⟩ := hnext e' h
      have h₁ : e' < e := by simpa using honward
      have h₂ : last < e := by simpa using hm
      unfold CachedAt at he ⊢
      omega
  · unfold CachedAt at he
    have := part.holdsHeader
    omega

/-! ### Looking an item up -/

theorem safe_entrySize (h : Inside part e 16) : Safe part (entrySize part mem e) (fun s => s < 2 ^ 32) := by
  unfold Inside at h
  have := part.size_lt
  refine (safe_readLe ⟨by omega, by omega⟩).bind fun eSize _ => ?_
  refine (safe_readLe ⟨by omega, by omega⟩).bind fun paddingData _ => ?_
  split
  · exact safe_pure (by omega)
  · exact safe_failWith

theorem safe_lastUncached (part : Partition) (mem : Mem) :
    Safe part (phdrToLastUncachedEntry mem part.virtBase) (fun p => p < 2 ^ 64) := by
  have := part.holdsHeader
  exact (safe_readLe ⟨by omega, by omega⟩).bind fun _ _ => safe_pure (ptrAdd_lt _ _)

theorem safe_lastCached (part : Partition) (mem : Mem) :
    Safe part (phdrToLastCachedEntry mem part.virtBase) (fun p => p < 2 ^ 64) := by
  have := part.holdsHeader
  exact (safe_readLe ⟨by omega, by omega⟩).bind fun _ _ => safe_pure (ptrAdd_lt _ _)

/-- The item of an entry: its size and address are read and checked. -/
theorem safe_itemOf {lo hi : Nat} {item : Acc Nat} (hentry : Inside part e 16) (hitem : Safe part item (· < 2 ^ 64))
    (hlo : part.virtBase ≤ lo) (hhi : hi ≤ part.virtBase + part.size) :
    Safe part (entrySize part mem e >>= fun s => item >>= fun p =>
      if !inPartitionRange p s lo hi then failWith .einval else pure (p, s)) (fun r => Inside part r.1 r.2) := by
  refine (safe_entrySize hentry).bind fun s hs => hitem.bind fun p hp => ?_
  split
  · exact safe_failWith
  · next hr =>
    have hr' : inPartitionRange p s lo hi := by simpa using hr
    have := inPartitionRange_spec hp (by omega) hr'
    exact safe_pure ⟨by omega, by omega⟩

theorem safe_getPrivate (part : Partition) (mem : Mem) (item : Nat) :
    Safe part (qcomSmemGetPrivate part mem item) (fun r => Inside part r.1 r.2) := by
  have hsize := part.holdsHeader
  have hmapped := part.mapped
  unfold qcomSmemGetPrivate
  refine (safe_lastUncached part mem).bind fun uncachedEnd hu => ?_
  refine (safe_lastCached part mem).bind fun cachedEnd hc => ?_
  split
  · exact safe_failWith
  · next hchk =>
    obtain ⟨hlo, hmid, hhi⟩ := offsets_checked hu hchk
    refine (safe_uncachedWalk (by omega)).bind ?_
    rintro ⟨hit, e⟩ ⟨he, hhit⟩
    unfold UncachedAt at he
    dsimp only at he hhit ⊢
    split
    · next h =>
      have hin := hhit h
      refine safe_itemOf ⟨by omega, by omega⟩ ?_ (by omega) (by omega)
      exact (safe_readLe ⟨by omega, by omega⟩).bind fun _ _ => safe_pure (ptrAdd_lt _ _)
    · split
      · exact safe_failWith
      · split
        · exact safe_failWith
        · refine Safe.bind (Q := fun p => p < 2 ^ 64) ?_ fun e he => ?_
          · exact (safe_readLe ⟨by omega, by omega⟩).bind fun _ _ => safe_pure (ptrSub_lt _ _)
          · split
            · exact safe_failWith
            · next hr =>
              rw [Bool.or_eq_true, not_or, Bool.not_eq_true', Bool.not_eq_false, Bool.not_eq_true',
                Bool.not_eq_false] at hr
              have hfirst := inPartitionRange_spec he (by decide) hr.2
              rw [end_eq] at hfirst
              refine (safe_cachedWalk (by omega) hfirst.2).bind ?_
              rintro ⟨hit, e⟩ ⟨he, hhit⟩
              dsimp only at he hhit ⊢
              unfold CachedAt at he
              split
              · next h =>
                have hgt := hhit h
                refine safe_itemOf ⟨by omega, he⟩ ?_ (by omega) (by omega)
                exact (safe_readLe ⟨by omega, by omega⟩).bind fun _ _ => safe_pure (ptrSub_lt _ _)
              · split <;> exact safe_failWith

/-! ### Where the uncached entries end -/

def entryCanary (mem : Mem) (e : Nat) : Nat := leNat (peek mem e 2)
def entryItem (mem : Mem) (e : Nat) : Nat := leNat (peek mem (e + 2) 2)

/-- The address behind an entry. -/
def entryNext (mem : Mem) (e : Nat) : Nat :=
  ptrAdd (ptrAdd (ptrAdd e sizeofEntry) (leNat (peek mem (e + 10) 2))) (leNat (peek mem (e + 4) 4))

/-- The uncached entries from `e` on, none of them the item, end at `h`. -/
inductive ListEnds (mem : Mem) (item last : Nat) : Nat → Nat → Prop
  | done {e : Nat} : ¬ (e < last ∧ ptrAdd e sizeofEntry < last) → ListEnds mem item last e e
  | next {e h : Nat} : e < last → ptrAdd e sizeofEntry < last → entryCanary mem e = smemPrivateCanary →
      entryItem mem e ≠ item → e < entryNext mem e → ListEnds mem item last (entryNext mem e) h →
      ListEnds mem item last e h

theorem round_res {e' : Nat} (hnext : next.res = .ok e') : (round mem item e more next onward).res = if more then
        if entryCanary mem e ≠ smemPrivateCanary then .error (.errno .einval)
        else if entryItem mem e = item then .ok .hit else if onward e' then .ok (.next e') else .error (.errno .einval)
      else .ok .done := by
  unfold round
  cases more with
  | false => rfl
  | true =>
    rw [if_pos rfl, if_pos rfl, res_bind_of_ok (a := entryCanary mem e) rfl]
    by_cases hcanary : entryCanary mem e ≠ smemPrivateCanary
    · rw [if_pos hcanary, if_pos hcanary]
      rfl
    · rw [if_neg hcanary, if_neg hcanary, res_bind_of_ok (a := entryItem mem e) rfl]
      by_cases hitem : entryItem mem e = item
      · rw [if_pos hitem, if_pos hitem]
        rfl
      · rw [if_neg hitem, if_neg hitem, res_bind_of_ok hnext]
        cases onward e' <;> rfl

theorem uncachedRound_res (mem : Mem) (item last e : Nat) : (uncachedRound mem item last e).res =
    if e < last ∧ ptrAdd e sizeofEntry < last then if entryCanary mem e ≠ smemPrivateCanary then .error (.errno .einval)
      else if entryItem mem e = item then .ok .hit
      else if e < entryNext mem e then .ok (.next (entryNext mem e)) else .error (.errno .einval) else .ok .done := by
  unfold uncachedRound
  rw [round_res (show (uncachedEntryNext mem e).res = .ok (entryNext mem e) from rfl)]
  simp

theorem walk_res (n e : Nat) : (walk body (n + 1) e).res =
    match (body e).res with
    | .error d => .error d
    | .ok .done => .ok (false, e)
    | .ok .hit => .ok (true, e)
    | .ok (.next e') => (walk body n e').res := by
  rw [walk]
  cases hb : (body e).res with
  | error d => rw [bind_of_error hb]
  | ok r =>
    rw [res_bind_of_ok hb]
    cases r <;> rfl

/-- A walk that does not meet the item ends where the entries end. -/
theorem listEnds_of_walk (hres : (walk (uncachedRound mem item last) n e).res = .ok (false, h)) :
    ListEnds mem item last e h := by
  induction n generalizing e with
  | zero => cases hres
  | succ n ih =>
    rw [walk_res, uncachedRound_res] at hres
    by_cases hmore : e < last ∧ ptrAdd e sizeofEntry < last
    · rw [if_pos hmore] at hres
      by_cases hcanary : entryCanary mem e ≠ smemPrivateCanary
      · rw [if_pos hcanary] at hres
        cases hres
      · rw [if_neg hcanary] at hres
        by_cases hitem : entryItem mem e = item
        · rw [if_pos hitem] at hres
          cases hres
        · rw [if_neg hitem] at hres
          by_cases hnext : e < entryNext mem e
          · rw [if_pos hnext] at hres
            exact .next hmore.1 hmore.2 (not_not.mp hcanary) hitem hnext (ih hres)
          · rw [if_neg hnext] at hres
            cases hres
    · rw [if_neg hmore] at hres
      cases hres
      exact .done hmore

theorem walk_of_listEnds (hends : ListEnds mem item last e h) (hn : last - e < n) :
    (walk (uncachedRound mem item last) n e).res = .ok (false, h) := by
  induction hends generalizing n with
  | @done e hdone =>
    obtain ⟨n, rfl⟩ : ∃ k, n = k + 1 := ⟨n - 1, by omega⟩
    rw [walk_res, uncachedRound_res, if_neg hdone]
  | @next e h hlt hmore hcanary hitem hnext _ ih =>
    obtain ⟨n, rfl⟩ : ∃ k, n = k + 1 := ⟨n - 1, by omega⟩
    rw [walk_res, uncachedRound_res, if_pos ⟨hlt, hmore⟩, if_neg (not_not.mpr hcanary), if_neg hitem, if_pos hnext]
    exact ih (by omega)

/-! ### Allocating an item -/

theorem safe_writeEntry (h : Inside part hdr 12) :
    Safe part (writeEntry mem part.virtBase hdr item size) (fun _ => True) := by
  unfold Inside at h
  have hsize := part.holdsHeader
  refine (safe_writeLe ⟨h.1, by omega⟩).bind fun _ _ => ?_
  refine (safe_writeLe ⟨by omega, by omega⟩).bind fun _ _ => ?_
  refine (safe_writeLe ⟨by omega, by omega⟩).bind fun _ _ => ?_
  refine (safe_readLe ⟨by omega, by omega⟩).bind fun _ _ => ?_
  refine (safe_writeLe ⟨by omega, by omega⟩).bind fun _ _ => ?_
  refine (safe_writeLe ⟨by omega, by omega⟩).bind fun _ _ => ?_
  refine (safe_readLe ⟨by omega, by omega⟩).bind fun _ _ => ?_
  exact safe_writeLe ⟨by omega, by omega⟩

/-- The offsets of the header. -/
def freeUncached (part : Partition) (mem : Mem) : Nat := ptrAdd part.virtBase (leNat (peek mem (part.virtBase + 12) 4))
def freeCached (part : Partition) (mem : Mem) : Nat := ptrAdd part.virtBase (leNat (peek mem (part.virtBase + 16) 4))

/-- The entries end in the last bytes of the partition, where no header fits any more, and the sum
of the address there and the requested space wraps round to an address below the cached region. -/
def Overruns (part : Partition) (mem : Mem) (item size : Nat) : Prop :=
  ∃ h, ListEnds mem item (freeUncached part mem) (part.virtBase + 32) h ∧ h ≤ freeUncached part mem ∧
    part.virtBase ≤ freeUncached part mem ∧ freeUncached part mem ≤ freeCached part mem ∧
    freeCached part mem ≤ part.virtBase + part.size ∧ part.virtBase + part.size < h + 12 ∧
    ptrAdd h (allocSize size) ≤ freeCached part mem

theorem first_ends (part : Partition) (mem : Mem) (item h : Nat) (hlast : last ≤ part.virtBase + part.size) :
    (walk (uncachedRound mem item last) part.size (phdrToFirstUncachedEntry part.virtBase)).res = .ok (false, h) ↔
      ListEnds mem item last (part.virtBase + 32) h := by
  have := part.holdsHeader
  rw [first_eq]
  exact ⟨listEnds_of_walk, fun hends => walk_of_listEnds hends (by omega)⟩

theorem safe_allocPrivate (h : ¬ Overruns part mem item size) :
    Safe part (qcomSmemAllocPrivate part mem item size) (fun _ => True) := by
  have hsize := part.holdsHeader
  unfold qcomSmemAllocPrivate
  refine Safe.bind (safe_lastUncached part mem).res fun last hlast => ?_
  refine Safe.bind (safe_lastCached part mem).res fun cached hcached => ?_
  obtain rfl : last = freeUncached part mem := (Except.ok.inj hlast.2).symm
  obtain rfl : cached = freeCached part mem := (Except.ok.inj hcached.2).symm
  split
  · exact safe_failWith
  · next hchk =>
    obtain ⟨hlo, hmid, hhi⟩ := offsets_checked hlast.1 hchk
    refine Safe.bind (safe_uncachedWalk (by omega)).res ?_
    rintro ⟨hit, hdr⟩ ⟨⟨hat, -⟩, hres⟩
    unfold UncachedAt at hat
    dsimp only at hat ⊢
    split
    · exact safe_failWith
    · next hmiss =>
      split
      · exact safe_failWith
      · next hle =>
        split
        · exact safe_failWith
        · next hroom =>
          obtain rfl : hit = false := by simpa using hmiss
          refine safe_writeEntry ⟨by omega, ?_⟩
          by_contra hout
          exact h ⟨hdr, (first_ends part mem item hdr (by omega)).mp hres, by omega, hlo, hmid, hhi, by omega, by omega⟩

/-- The write of the last field of the new header. -/
theorem writeEntry_log (mem : Mem) (phdr hdr item size : Nat) :
    ⟨true, hdr + 10, 2⟩ ∈ (writeEntry mem phdr hdr item size).log := by
  simp [writeEntry, writeLe, readLe, bind_ok]

theorem allocPrivate_writes (hends : ListEnds mem item (freeUncached part mem) (part.virtBase + 32) hdr)
    (hle : hdr ≤ freeUncached part mem) (hlo : part.virtBase ≤ freeUncached part mem)
    (hmid : freeUncached part mem ≤ freeCached part mem) (hhi : freeCached part mem ≤ part.virtBase + part.size)
    (hroom : ptrAdd hdr (allocSize size) ≤ freeCached part mem) :
    ⟨true, hdr + 10, 2⟩ ∈ (qcomSmemAllocPrivate part mem item size).log := by
  have hwalk := (first_ends part mem item hdr (by omega)).mpr hends
  unfold qcomSmemAllocPrivate
  refine mem_log_bind_of_ok (a := freeUncached part mem) rfl ?_
  refine mem_log_bind_of_ok (a := freeCached part mem) rfl ?_
  rw [offsets_pass hlo hmid hhi]
  refine mem_log_bind_of_ok hwalk ?_
  simp only [Bool.false_eq_true, if_false]
  rw [if_neg (by omega), if_neg (by omega)]
  exact writeEntry_log ..

/-- For every content of the partition both functions end and stay inside it, and so does what they
return, exactly when the requested size does not wrap round at the end of the partition. -/
theorem smem_safe_iff (part : Partition) (mem : Mem) (item size : Nat) :
    Safe part (qcomSmemGetPrivate part mem item) (fun r => Inside part r.1 r.2) ∧
        Safe part (qcomSmemAllocPrivate part mem item size) (fun _ => True) ↔ ¬ Overruns part mem item size := by
  refine ⟨?_, fun h => ⟨safe_getPrivate part mem item, safe_allocPrivate h⟩⟩
  rintro hsafe ⟨hdr, hends, hle, hlo, hmid, hhi, hout, hroom⟩
  have hin := hsafe.2.logged _ (allocPrivate_writes hends hle hlo hmid hhi hroom)
  unfold Access.Within Inside at hin
  dsimp only at hin
  omega

/-- A partition of 64 bytes. -/
def smallPartition : Partition := ⟨4096, 64, 32, by decide, by decide, by decide, by decide⟩

/-- Its header says that it is full, and its only entry ends at its end. -/
def fullMem : Mem := poke (poke (fun _ => 0) (4096 + 8) (leBytes 4 64 ++ leBytes 4 64 ++ leBytes 4 64)) (4096 + 32)
  (leBytes 2 smemPrivateCanary ++ leBytes 2 1 ++ leBytes 4 16)

/-- With a size that wraps round a header is written behind the partition. -/
theorem allocPrivate_leaves_partition : ∃ a ∈ (qcomSmemAllocPrivate smallPartition fullMem 9 (2 ^ 64 - 16)).log,
      a.isWrite = true ∧ smallPartition.virtBase + smallPartition.size ≤ a.addr :=
  ⟨⟨true, 4096 + 64, 2⟩, by decide +kernel, by decide⟩

theorem align_eight {x : Nat} (h : x + 7 < 2 ^ 64) : align x 8 = (x + 7) / 8 * 8 := by
  have hmask : BitVec.ofNat 64 8 - 1 = BitVec.ofNat 64 (2 ^ 3 - 1) := by decide
  rw [align, hmask, Words.toNat_and_not_mask]
  have hsum : (BitVec.ofNat 64 x + BitVec.ofNat 64 (2 ^ 3 - 1)).toNat = x + 7 := by
    rw [BitVec.toNat_add, BitVec.toNat_ofNat, BitVec.toNat_ofNat]
    omega
  rw [hsum]
  rfl

end Sm8850.Smem
