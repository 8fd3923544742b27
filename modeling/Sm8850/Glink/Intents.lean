import Sm8850.Lib.XArray
import Sm8850.Lib.Path
import Sm8850.Lib.Fragments
import Sm8850.Glink.Fifo

/-! The sending side of drivers/rpmsg/qcom_glink_native.c on a channel with intents: `__qcom_glink_send` on
any number of threads, with the intents the peer advertises and gives back. -/
namespace Sm8850.Glink.Intents
open List Prod Option XArray

/-- A remote intent, as far as the sender uses it. -/
structure RIntent where
  size : Nat
  inUse : Bool
  deriving DecidableEq, Repr

/-- A call of `__qcom_glink_send` that has chosen its intent. -/
structure Send where
  iid : Nat
  data : List U8
  offset : Nat
  wait : Bool
  deriving DecidableEq, Repr

open Send

def sz8K : Nat := 8192

def Send.chunkSize (x : Send) : Nat :=
  let rest := x.data.length - x.offset
  if sz8K < rest ∧ x.wait then sz8K else rest

def Send.advance (x : Send) : Send := { x with offset := x.offset + x.chunkSize }

/-- The TX_DATA or TX_DATA_CONT packet of the next fragment: its payload and the size left. -/
def Send.piece {κ : Type} (x : Send) (key : κ) : Fragments.Piece κ U8 :=
  ⟨key, (x.data.drop x.offset).take x.chunkSize, x.data.length - x.offset - x.chunkSize⟩

/-- The smaller of the intent found so far and this one. -/
def better (iid size : Nat) : Option (Nat × Nat) → Nat × Nat
  | none => (iid, size)
  | some best => if size < best.2 then (iid, size) else best

/-- The loop over the remote intents: the smallest that is free and large enough, and the first of
the right size. -/
def chooseFrom (len : Nat) : Option (Nat × Nat) → List (Nat × RIntent) → Option (Nat × Nat)
  | best, [] => best
  | best, (iid, it) :: rest =>
    if len ≤ it.size ∧ it.inUse = false then
      let best := better iid it.size best
      if best.2 = len then some best else chooseFrom len (some best) rest
    else chooseFrom len best rest

def chooseIntent (riids : XArray RIntent) (len : Nat) : Option Nat := (chooseFrom len none riids.entries).map fst

/-- The sending side of a channel. `sends` are the sends that go on. `unacked` are the intents of the messages
that are on the FIFO, whole or in part, whose send does not go on and which have not been acknowledged. -/
structure Sender where
  riids : XArray RIntent
  sends : List Send
  unacked : List Nat

def setInUse (riids : XArray RIntent) (iid : Nat) (inUse : Bool) : XArray RIntent :=
  match riids.load iid with
  | none => riids
  | some it => riids.store iid { it with inUse := inUse }

/-- What a failing send leaves on the FIFO. -/
def Send.left (x : Send) : List Nat := if 0 < x.offset then [x.iid] else []

inductive Event where
  | start (data : List U8) (wait : Bool)
  | put (x : Send)
  | fail (x : Send)
  | rxDone (iid : Nat) (reuse : Bool)
  | intent (size iid : Nat)

/-- A send chooses an intent and puts fragments on the FIFO until one fails or the last is there; an empty
message has none. `qcom_glink_handle_rx_done` frees an intent, and `qcom_glink_handle_intent` adds one
unless its id is taken. -/
inductive Step : Sender → Event → Sender → Prop
  | start {s : Sender} {data : List U8} {wait : Bool} {iid : Nat} (hfree : chooseIntent s.riids data.length = some iid)
      (hdata : data ≠ []) :
      Step s (.start data wait) { s with riids := setInUse s.riids iid true, sends := ⟨iid, data, 0, wait⟩ :: s.sends }
  | empty {s : Sender} {wait : Bool} {iid : Nat} (hfree : chooseIntent s.riids 0 = some iid) :
      Step s (.start [] wait) { s with riids := setInUse s.riids iid true }
  | put {s : Sender} {pre post : List Send} {x : Send} (hsends : s.sends = pre ++ x :: post)
      (hmore : x.advance.offset < x.data.length) : Step s (.put x) { s with sends := pre ++ x.advance :: post }
  | last {s : Sender} {pre post : List Send} {x : Send} (hsends : s.sends = pre ++ x :: post)
      (hlast : x.data.length ≤ x.advance.offset) : Step s (.put x) ⟨s.riids, pre ++ post, x.iid :: s.unacked⟩
  | fail {s : Sender} {pre post : List Send} {x : Send} (hsends : s.sends = pre ++ x :: post) :
      Step s (.fail x) ⟨setInUse s.riids x.iid false, pre ++ post, x.left ++ s.unacked⟩
  | rxDone {s : Sender} {iid : Nat} {reuse : Bool} {it : RIntent} (hfound : s.riids.load iid = some it) :
      Step s (.rxDone iid reuse)
        { s with riids := if reuse then setInUse s.riids iid false else s.riids.erase iid
                 unacked := s.unacked.erase iid }
  | invalid {s : Sender} {iid : Nat} {reuse : Bool} (hfound : s.riids.load iid = none) : Step s (.rxDone iid reuse) s
  | intent {s : Sender} {size iid : Nat} (hnew : s.riids.load iid = none) :
      Step s (.intent size iid) { s with riids := s.riids.store iid ⟨size, false⟩ }
  | taken {s : Sender} {size iid : Nat} {it : RIntent} (hold : s.riids.load iid = some it) : Step s (.intent size iid) s

def Sender.initial : Sender := ⟨.empty, [], []⟩

/-- The intent is in the set and marked in use. -/
def inUseAt (s : Sender) (iid : Nat) : Bool := (s.riids.load iid).any RIntent.inUse

/-- How many messages use an intent: those being sent, and those on the FIFO without an
acknowledgement. -/
def holders (s : Sender) (iid : Nat) : Nat := (s.sends.map Send.iid).count iid + s.unacked.count iid

/-- An intent is marked in use exactly when one message uses it, and never two do. -/
def Accounted (s : Sender) : Prop := ∀ iid, holders s iid ≤ 1 ∧ (inUseAt s iid = true ↔ holders s iid = 1)

/-- The condition for a step: a message is not empty, no send fails after its first fragment, and no
RX_DONE comes for an intent whose message is still being sent. -/
def Proper (s : Sender) : Event → Prop
  | .start data _ => data ≠ []
  | .fail x => x.offset = 0
  | .rxDone iid _ => iid ∉ s.sends.map Send.iid
  | _ => True

/-! ### The fragments of a message -/

section
variable {κ : Type} {x : Send} {key : κ}

theorem Send.chunkSize_le : x.chunkSize ≤ x.data.length - x.offset := by
  unfold chunkSize
  dsimp only
  split <;> omega

theorem Send.chunkSize_pos (h : x.offset < x.data.length) : 0 < x.chunkSize := by
  unfold chunkSize sz8K
  dsimp only
  split <;> omega

theorem Send.length_piece : (x.piece key).data.length = x.chunkSize := by
  have hle := x.chunkSize_le
  unfold piece
  rw [length_take, length_drop]
  omega

theorem Send.piece_ne_nil (h : x.offset < x.data.length) : (x.piece key).data ≠ [] := by
  rw [← length_pos_iff, length_piece]
  exact chunkSize_pos h

/-- A fragment continues what has been put. -/
theorem Send.take_advance : x.data.take x.offset ++ (x.piece key).data = x.data.take x.advance.offset := take_add.symm

theorem Send.left_piece : (x.piece key).left = x.data.length - x.advance.offset := Nat.sub_sub ..

end

/-! ### Choosing an intent -/

section
variable {len iid size : Nat} {l : List (Nat × RIntent)} {best : Option (Nat × Nat)} {riids : XArray RIntent}

theorem better_some {b : Nat × Nat} (h : better iid size best = b) : best = some b ∨ b.1 = iid := by
  subst h
  cases best with
  | none => exact .inr rfl
  | some b =>
    unfold better
    dsimp only
    split
    · exact .inr rfl
    · exact .inl rfl

/-- The intent chosen is the best one so far or a free one of the list. -/
theorem chooseFrom_some (h : chooseFrom len best l = some (iid, size)) :
    best = some (iid, size) ∨ ∃ it, (iid, it) ∈ l ∧ it.inUse = false ∧ len ≤ it.size := by
  induction l generalizing best with
  | nil =>
    exact .inl h
  | cons e rest ih =>
    obtain ⟨j, it⟩ := e
    unfold chooseFrom at h
    by_cases hfits : len ≤ it.size ∧ it.inUse = false
    · rw [if_pos hfits] at h
      have hdone : better j it.size best = (iid, size) →
          best = some (iid, size) ∨ ∃ it', (iid, it') ∈ (j, it) :: rest ∧ it'.inUse = false ∧ len ≤ it'.size := by
        intro hb
        rcases better_some hb with hb | rfl
        · exact .inl hb
        · exact .inr ⟨it, .head _, hfits.2, hfits.1⟩
      dsimp only at h
      split at h
      · exact hdone (some.inj h)
      · rcases ih h with hb | ⟨it', hmem, hfree⟩
        · exact hdone (some.inj hb)
        · exact .inr ⟨it', .tail _ hmem, hfree⟩
    · rw [if_neg hfits] at h
      rcases ih h with hb | ⟨it', hmem, hfree⟩
      · exact .inl hb
      · exact .inr ⟨it', .tail _ hmem, hfree⟩

theorem chooseIntent_some (h : chooseIntent riids len = some iid) :
    ∃ it, riids.load iid = some it ∧ it.inUse = false ∧ len ≤ it.size := by
  obtain ⟨⟨j, size⟩, hchoose, rfl⟩ := map_eq_some_iff.mp h
  rcases chooseFrom_some hchoose with hnone | ⟨it, hmem, hfree⟩
  · cases hnone
  · exact ⟨it, mem_entries.mp hmem, hfree⟩

end

/-! ### Accounting -/

section
variable {s t : Sender} {a : Event} {x : Send} {pre post : List Send} {iid j : Nat} {b : Bool} {run : List (Event × Sender)}

theorem load_setInUse_self {riids : XArray RIntent} {it : RIntent} (h : riids.load iid = some it) :
    (setInUse riids iid b).load iid = some { it with inUse := b } := by
  unfold setInUse
  rw [h]
  exact load_store.trans (if_pos rfl)

theorem load_setInUse_ne {riids : XArray RIntent} (h : j ≠ iid) : (setInUse riids iid b).load j = riids.load j := by
  unfold setInUse
  split
  · rfl
  · exact load_store.trans (if_neg h)

theorem inUse_setInUse {riids : XArray RIntent} {it : RIntent} (h : riids.load iid = some it) :
    ((setInUse riids iid b).load j).any RIntent.inUse = if j = iid then b else (riids.load j).any RIntent.inUse := by
  unfold setInUse
  rw [h]
  rw [load_store]
  split <;> rfl

theorem inUseAt_load (h : inUseAt s iid) : ∃ it, s.riids.load iid = some it := by
  unfold inUseAt at h
  cases hload : s.riids.load iid with
  | none =>
    rw [hload] at h
    cases h
  | some it => exact ⟨it, rfl⟩

theorem count_sends (hsends : s.sends = pre ++ x :: post) :
    (s.sends.map Send.iid).count j = ((pre ++ post).map Send.iid).count j + if x.iid = j then 1 else 0 := by
  rw [hsends]
  simp only [map_append, map_cons, count_append, count_cons, beq_iff_eq]
  omega

/-- The intent of a send is in use. -/
theorem Accounted.sending (h : Accounted s) (hsends : s.sends = pre ++ x :: post) :
    holders s x.iid = 1 ∧ ∃ it, s.riids.load x.iid = some it := by
  have hle := (h x.iid).1
  have hone : holders s x.iid = 1 := by
    have hcount := count_sends (j := x.iid) hsends
    rw [if_pos rfl] at hcount
    unfold holders at hle ⊢
    omega
  exact ⟨hone, inUseAt_load ((h x.iid).2.mpr hone)⟩

/-- A send that ends: the intent it leaves marked `b` is accounted for exactly when something of the message
is on the FIFO. -/
theorem accounted_end {k : Bool} (h : Accounted s) (hsends : s.sends = pre ++ x :: post) (hrest : t.sends = pre ++ post)
    (hunacked : t.unacked = (if k then [x.iid] else []) ++ s.unacked)
    (huse : ∀ j, inUseAt t j = if j = x.iid then b else inUseAt s j) : Accounted t ↔ (b ↔ k) := by
  obtain ⟨hone, -⟩ := h.sending hsends
  have hholders : ∀ j, holders t j = if j = x.iid then (if k then 1 else 0) else holders s j := by
    intro j
    have hcount := count_sends (j := j) hsends
    unfold holders at hone ⊢
    rw [hrest, hunacked, count_append]
    by_cases hj : j = x.iid
    · subst hj
      rw [hcount] at hone
      cases k <;> simp at hone ⊢ <;> omega
    · rw [hcount]
      cases k <;> simp [hj, Ne.symm hj]
  constructor
  · intro ht
    have hx := (ht x.iid).2
    rw [huse, hholders, if_pos rfl, if_pos rfl] at hx
    rw [hx]
    cases k <;> simp
  · intro hb j
    rw [huse, hholders]
    by_cases hj : j = x.iid
    · rw [if_pos hj, if_pos hj, hb]
      cases k <;> simp
    · rw [if_neg hj, if_neg hj]
      exact h j

theorem accounted_rxDone {reuse : Bool} {it : RIntent} (h : Accounted s) (hfound : s.riids.load iid = some it)
    (hsends : t.sends = s.sends) (hunacked : t.unacked = s.unacked.erase iid)
    (huse : ∀ j, inUseAt t j = if j = iid then false else inUseAt s j) :
    Accounted t ↔ Proper s (.rxDone iid reuse) := by
  have hle := (h iid).1
  have hholders : ∀ j, j ≠ iid → holders t j = holders s j := by
    intro j hj
    unfold holders
    rw [hsends, hunacked, count_erase_of_ne hj]
  have hself : holders t iid = (s.sends.map Send.iid).count iid := by
    unfold holders at hle ⊢
    rw [hsends, hunacked, count_erase_self]
    omega
  constructor
  · intro ht
    have hx := (ht iid).2
    have hle' := (ht iid).1
    rw [huse, if_pos rfl, hself] at hx
    refine count_eq_zero.mp ?_
    have hne : ¬ (s.sends.map Send.iid).count iid = 1 := fun hc => Bool.false_ne_true (hx.mpr hc)
    omega
  · intro hok j
    by_cases hj : j = iid
    · subst hj
      rw [huse, if_pos rfl, hself, count_eq_zero.mpr hok]
      exact ⟨Nat.zero_le _, by simp⟩
    · rw [huse, if_neg hj, hholders j hj]
      exact h j

/-- An intent that is free is nobody's. -/
theorem Accounted.free (h : Accounted s) (huse : inUseAt s iid = false) : holders s iid = 0 := by
  have hle := (h iid).1
  have hne : ¬ holders s iid = 1 := fun hone => Bool.false_ne_true (huse.symm.trans ((h iid).2.mpr hone))
  omega

theorem inUseAt_choose {len : Nat} (hfree : chooseIntent s.riids len = some iid) :
    inUseAt s iid = false ∧ ∀ j, ((setInUse s.riids iid true).load j).any RIntent.inUse = if j = iid then true else inUseAt s j := by
  obtain ⟨it, hload, hnot, -⟩ := chooseIntent_some hfree
  refine ⟨?_, fun j => inUse_setInUse hload⟩
  unfold inUseAt
  rw [hload]
  exact hnot

theorem accounted_step (hstep : Step s a t) (h : Accounted s) : Accounted t ↔ Proper s a := by
  cases hstep with
  | @start data wait iid hfree hdata =>
    refine iff_of_true (fun j => ?_) hdata
    obtain ⟨huse, hat⟩ := inUseAt_choose hfree
    have hat' : inUseAt { s with riids := setInUse s.riids iid true, sends := ⟨iid, data, 0, wait⟩ :: s.sends } j =
        if j = iid then true else inUseAt s j := hat j
    have hcount : holders { s with riids := setInUse s.riids iid true, sends := ⟨iid, data, 0, wait⟩ :: s.sends } j =
        holders s j + if iid = j then 1 else 0 := by
      unfold holders
      simp only [map_cons, count_cons, beq_iff_eq]
      omega
    rw [hat', hcount]
    by_cases hj : j = iid
    · subst hj
      rw [if_pos rfl, if_pos rfl, h.free huse]
      simp
    · rw [if_neg hj, if_neg (Ne.symm hj)]
      exact h j
  | @empty wait iid hfree =>
    obtain ⟨huse, hat⟩ := inUseAt_choose hfree
    refine iff_of_false (fun ht => ?_) fun hne => hne rfl
    have hone := (ht iid).2.mp ((hat iid).trans (if_pos rfl))
    exact Nat.zero_ne_one ((h.free huse).symm.trans hone)
  | @put pre post x hsends hmore =>
    refine iff_of_true (fun j => ?_) trivial
    have hcount : holders { s with sends := pre ++ x.advance :: post } j = holders s j := by
      unfold holders
      rw [hsends]
      simp only [map_append, map_cons]
      rfl
    rw [hcount]
    exact h j
  | @last pre post x hsends hlast =>
    have huse := (h x.iid).2.mpr (h.sending hsends).1
    have hend : Accounted ⟨s.riids, pre ++ post, x.iid :: s.unacked⟩ ↔ (true ↔ true) := by
      refine accounted_end h hsends rfl rfl fun j => ?_
      by_cases hj : j = x.iid
      · rw [if_pos hj, hj]
        exact huse
      · rw [if_neg hj]
        rfl
    exact iff_of_true (hend.mpr Iff.rfl) trivial
  | @fail pre post x hsends =>
    obtain ⟨-, it, hload⟩ := h.sending hsends
    have hend : Accounted ⟨setInUse s.riids x.iid false, pre ++ post, x.left ++ s.unacked⟩ ↔
        (false ↔ decide (0 < x.offset)) := by
      refine accounted_end h hsends rfl ?_ fun j => inUse_setInUse hload
      unfold left
      simp
    rw [hend]
    simp [Proper]
  | @rxDone iid reuse it hfound =>
    refine accounted_rxDone h hfound rfl rfl fun j => ?_
    cases reuse with
    | true => exact inUse_setInUse hfound
    | false =>
      unfold inUseAt
      rw [if_neg Bool.false_ne_true, load_erase]
      split <;> rfl
  | @invalid iid reuse hfound =>
    refine iff_of_true h ?_
    have huse : inUseAt s iid = false := by
      unfold inUseAt
      rw [hfound]
      rfl
    have hzero := h.free huse
    refine count_eq_zero.mp ?_
    unfold holders at hzero
    omega
  | @intent size iid hnew =>
    refine iff_of_true (fun j => ?_) trivial
    have hat : inUseAt { s with riids := s.riids.store iid ⟨size, false⟩ } j = inUseAt s j := by
      unfold inUseAt
      rw [load_store]
      split
      · next hj =>
        rw [hj, hnew]
        rfl
      · rfl
    rw [hat]
    exact h j
  | taken hold => exact iff_of_true h trivial

theorem accounted_initial : Accounted .initial := fun _ => ⟨Nat.zero_le _, by simp [inUseAt, holders, Sender.initial]⟩

/-- In every state of a run an intent is marked in use exactly when one message uses it, and never two
do, exactly when all the steps are proper. -/
theorem intents_accounted_iff (hrun : Lts.Path Step .initial run) :
    (∀ u ∈ Sender.initial :: run.map snd, Accounted u) ↔ Lts.Steps Proper .initial run := by
  exact hrun.always_iff_steps (I := fun _ => True) (fun _ _ _ _ _ _ _ => trivial)
    (fun _ _ _ hstep _ h => accounted_step hstep h) trivial accounted_initial

end

/-- One intent of 64 bytes is advertised, a message of one byte sent, and the intent given back. -/
def afterIntent : Sender := { Sender.initial with riids := Sender.initial.riids.store 1 ⟨64, false⟩ }
def sending : Sender := { afterIntent with riids := setInUse afterIntent.riids 1 true, sends := [⟨1, [7], 0, true⟩] }
def waiting : Sender := ⟨sending.riids, [], [1]⟩
def reused : Sender := ⟨setInUse waiting.riids 1 false, [], []⟩

def messageRun : List (Event × Sender) :=
  [(.intent 64 1, afterIntent), (.start [7] true, sending), (.put ⟨1, [7], 0, true⟩, waiting), (.rxDone 1 true, reused)]

theorem path_messageRun : Lts.Path Step .initial messageRun :=
  ⟨.intent rfl, .start rfl (by decide), .last (show sending.sends = [] ++ ⟨1, [7], 0, true⟩ :: [] from rfl) (by decide),
    .rxDone (show waiting.riids.load 1 = some ⟨64, true⟩ from rfl), trivial⟩

theorem intents_accounted_message :
    Lts.Path Step .initial messageRun ∧ ∀ u ∈ Sender.initial :: messageRun.map snd, Accounted u :=
  ⟨path_messageRun, (intents_accounted_iff path_messageRun).mpr
    ⟨trivial, by simp [Proper], trivial, by simp [Proper, waiting], trivial⟩⟩

/-- An empty message is sent instead. -/
def afterEmpty : Sender := { afterIntent with riids := setInUse afterIntent.riids 1 true }

def emptyRun : List (Event × Sender) := [(.intent 64 1, afterIntent), (.start [] true, afterEmpty)]

theorem path_emptyRun : Lts.Path Step .initial emptyRun := ⟨.intent rfl, .empty rfl, trivial⟩

/-- The send of an empty message returns, nothing is on the FIFO, and its intent stays in use. -/
theorem empty_send_keeps_intent : Lts.Path Step .initial emptyRun ∧ inUseAt afterEmpty 1 = true ∧ holders afterEmpty 1 = 0 :=
  ⟨path_emptyRun, rfl, rfl⟩

end Sm8850.Glink.Intents
