import Sm8850.Glink.Channel

/-! What happens to an intent from its allocation to its release, and the order of the messages of a channel. -/
namespace Sm8850.Glink.Channel
open List XArray Intents

open Intents (Send RIntent Sender)
open Fragments (Piece gather rest absorb completed)

/-- What the thread has taken off the queue, and the queue. -/
def Chan.items (c : Chan) : List Item := c.thread.toList ++ c.rxQueue

/-- The intent an item is about. -/
def Item.about : Item → Option Nat
  | .message iid | .done iid _ => some iid
  | .alloc _ _ => none

def Control.iid : Control → Nat
  | .rxDone iid _ | .intent _ iid => iid

/-- Everything in a channel that is about one intent. -/
structure View where
  riid : Option RIntent
  sends : List Send
  frags : List Frag
  liid : Option LIntent
  items : List Item
  held : List Nat
  fresh : List Nat
  control : List Control

open View

def view (s : Line) (iid : Nat) : View where
  riid := s.comp.tx.riids.load iid
  sends := s.comp.tx.sends.filter fun x => x.iid = iid
  frags := (s.queues .data).filter fun p => p.key = iid
  liid := s.comp.liids.load iid
  items := s.comp.items.filter fun i => i.about = some iid
  held := s.comp.held.filter fun i => i = iid
  fresh := s.comp.fresh.filter fun i => i = iid
  control := (s.queues .control).filter fun m => m.iid = iid

/-- The bytes of fragments. -/
def payload (ps : List Frag) : List U8 := ps.flatMap Piece.data

/-- The stages of an intent. It is in one place at a time: not yet advertised, advertised, free at the sender,
used by a send, with its message's last fragment on the FIFO, with the message waiting for the thread,
held by the receiver, to be acknowledged again, or acknowledged. Where an RX_DONE or an advertisement is
lost it is in none. -/
inductive Stage (iid : Nat) : View → Prop
  | absent {riid : Option RIntent} {liid : Option LIntent} (hused : ∀ r, riid = some r → r.inUse = true) :
      Stage iid ⟨riid, [], [], liid, [], [], [], []⟩
  | fresh {it : LIntent} (hdata : it.data = []) : Stage iid ⟨none, [], [], some it, [], [], [iid], []⟩
  | advertised {it : LIntent} (hdata : it.data = []) :
      Stage iid ⟨none, [], [], some it, [], [], [], [.intent it.size iid]⟩
  | free {it : LIntent} (hdata : it.data = []) : Stage iid ⟨some ⟨it.size, false⟩, [], [], some it, [], [], [], []⟩
  | sending {it : LIntent} {x : Send} {frags : List Frag} (hiid : x.iid = iid) (hlt : x.offset < x.data.length)
      (hmore : ∀ p ∈ frags, p.left ≠ 0) (hfirst : x.offset = 0 → frags = [])
      (hput : it.data ++ payload frags = x.data.take x.offset) (hsize : x.data.length ≤ it.size) : Stage iid ⟨some ⟨it.size, true⟩, [x], frags, some it, [], [], [], []⟩
  | flying {it : LIntent} {frags : List Frag} {p : Frag} (hmore : ∀ p ∈ frags, p.left ≠ 0) (hlast : p.left = 0)
      (hsize : it.data.length + (payload (frags ++ [p])).length ≤ it.size) :
      Stage iid ⟨some ⟨it.size, true⟩, [], frags ++ [p], some it, [], [], [], []⟩
  | waiting {it : LIntent} : Stage iid ⟨some ⟨it.size, true⟩, [], [], some it, [.message iid], [], [], []⟩
  | held {it : LIntent} : Stage iid ⟨some ⟨it.size, true⟩, [], [], some it, [], [iid], [], []⟩
  | undone {size : Nat} {reuse : Bool} {liid : Option LIntent}
      (hreuse : reuse = true → ∃ it, liid = some it ∧ it.data = [] ∧ it.size = size) :
      Stage iid ⟨some ⟨size, true⟩, [], [], liid, [.done iid reuse], [], [], []⟩
  | acked {size : Nat} {reuse : Bool} {liid : Option LIntent}
      (hreuse : reuse = true → ∃ it, liid = some it ∧ it.data = [] ∧ it.size = size) :
      Stage iid ⟨some ⟨size, true⟩, [], [], liid, [], [], [], [.rxDone iid reuse]⟩

/-- Every intent is at a stage. -/
def Staged (s : Line) : Prop := ∀ iid, Stage iid (view s iid)

/-- The bytes gathered for an intent. -/
def Chan.part (c : Chan) (iid : Nat) : List U8 := ((c.liids.load iid).map LIntent.data).getD []

/-- The intent of an item that is a message. -/
def Item.message? : Item → Option Nat
  | .message iid => some iid
  | _ => none

/-- The intents of the messages left to the thread. -/
def Chan.messages (c : Chan) : List Nat := c.items.filterMap Item.message?

def Chan.waiting (c : Chan) : List (List U8) := c.messages.map c.part

/-- The messages whose last fragments are on the FIFO. -/
def Line.gathered (s : Line) : List (List U8) := gather s.comp.part (s.queues .data)

/-- The messages whose send has succeeded are, in the order of their last fragments, those handed to the
callback, those left to the thread and those on the FIFO. -/
def InOrder (s : Line) : Prop := s.comp.sent = s.comp.handed ++ s.comp.waiting ++ s.gathered

/-- The condition for a step: a message is not empty, no send fails after its first fragment, a callback is not
called in irq context while the thread has a message whose callback it has not called, and a new local
intent does not get an id that is still in use between the two ends. -/
def Proper (s : Line) : Event → Prop
  | .tx (.start data _) => data ≠ []
  | .tx (.fail x) => x.offset = 0
  | .rx iters => s.comp.Direct iters → (∀ p ps, s.queues .data = p :: ps → p.left = 0 → ∀ iid, s.comp.thread ≠ some (.message iid))
  | .alloc iid => view s iid = ⟨none, [], [], none, [], [], [], []⟩
  | _ => True

section
variable {iid : Nat} {v : View}

section
variable (h : Stage iid v)
include h

theorem Stage.of_send {x : Send} (hx : x ∈ v.sends) :
    ∃ it frags, v = ⟨some ⟨it.size, true⟩, [x], frags, some it, [], [], [], []⟩ ∧ x.iid = iid ∧ x.offset < x.data.length ∧
      (∀ p ∈ frags, p.left ≠ 0) ∧ (x.offset = 0 → frags = []) ∧ it.data ++ payload frags = x.data.take x.offset ∧
      x.data.length ≤ it.size := by
  cases h with
  | sending hiid hlt hmore hfirst hput hsize =>
    obtain rfl := mem_singleton.mp hx
    exact ⟨_, _, rfl, hiid, hlt, hmore, hfirst, hput, hsize⟩
  | _ => cases hx

theorem Stage.of_message (hi : .message iid ∈ v.items) :
    ∃ it : LIntent, v = ⟨some ⟨it.size, true⟩, [], [], some it, [.message iid], [], [], []⟩ := by
  cases h with
  | waiting => exact ⟨_, rfl⟩
  | undone hreuse => cases mem_singleton.mp hi
  | _ => cases hi

theorem Stage.of_done {reuse : Bool} (hi : .done iid reuse ∈ v.items) :
    ∃ size liid, v = ⟨some ⟨size, true⟩, [], [], liid, [.done iid reuse], [], [], []⟩ ∧
      (reuse → ∃ it, liid = some it ∧ it.data = [] ∧ it.size = size) := by
  cases h with
  | waiting => cases mem_singleton.mp hi
  | undone hreuse =>
    obtain ⟨-, rfl⟩ := Item.done.inj (mem_singleton.mp hi)
    exact ⟨_, _, rfl, hreuse⟩
  | _ => cases hi

theorem Stage.of_held (hi : iid ∈ v.held) :
    ∃ it : LIntent, v = ⟨some ⟨it.size, true⟩, [], [], some it, [], [iid], [], []⟩ := by
  cases h with
  | held => exact ⟨_, rfl⟩
  | _ => cases hi

theorem Stage.of_fresh (hi : iid ∈ v.fresh) :
    ∃ it : LIntent, v = ⟨none, [], [], some it, [], [], [iid], []⟩ ∧ it.data = [] := by
  cases h with
  | fresh hdata => exact ⟨_, rfl, hdata⟩
  | _ => cases hi

theorem Stage.of_rxDone {reuse : Bool} (hi : .rxDone iid reuse ∈ v.control) :
    ∃ size liid, v = ⟨some ⟨size, true⟩, [], [], liid, [], [], [], [.rxDone iid reuse]⟩ ∧
      (reuse → ∃ it, liid = some it ∧ it.data = [] ∧ it.size = size) := by
  cases h with
  | advertised hdata => cases mem_singleton.mp hi
  | acked hreuse =>
    obtain ⟨-, rfl⟩ := Control.rxDone.inj (mem_singleton.mp hi)
    exact ⟨_, _, rfl, hreuse⟩
  | _ => cases hi

theorem Stage.of_intent {size : Nat} (hi : .intent size iid ∈ v.control) :
    ∃ it : LIntent, v = ⟨none, [], [], some it, [], [], [], [.intent size iid]⟩ ∧ it.data = [] ∧ it.size = size := by
  cases h with
  | advertised hdata =>
    obtain ⟨rfl, -⟩ := Control.intent.inj (mem_singleton.mp hi)
    exact ⟨_, rfl, hdata, rfl⟩
  | acked hreuse => cases mem_singleton.mp hi
  | _ => cases hi

theorem Stage.of_free {r : RIntent} (hr : v.riid = some r) (hfree : r.inUse = false) :
    ∃ it : LIntent, v = ⟨some r, [], [], some it, [], [], [], []⟩ ∧ it.data = [] ∧ r.size = it.size := by
  have hbusy : ∀ {size : Nat}, some (⟨size, true⟩ : RIntent) ≠ some r := by
    rintro size ⟨⟩
    cases hfree
  cases h with
  | absent hused => exact absurd (hused r hr) (hfree ▸ Bool.false_ne_true)
  | free hdata =>
    obtain rfl := Option.some.inj hr
    exact ⟨_, rfl, hdata, rfl⟩
  | fresh hdata => cases hr
  | advertised hdata => cases hr
  | _ => exact absurd hr hbusy

/-- An intent that has fragments on the FIFO is being sent or has its last one there. -/
theorem Stage.of_frag {p : Frag} {ps : List Frag} (hp : v.frags = p :: ps) :
    (∃ it x, v = ⟨some ⟨it.size, true⟩, [x], p :: ps, some it, [], [], [], []⟩ ∧ x.iid = iid ∧ x.offset < x.data.length ∧
      (∀ q ∈ p :: ps, q.left ≠ 0) ∧ x.offset ≠ 0 ∧ it.data ++ payload (p :: ps) = x.data.take x.offset ∧
      x.data.length ≤ it.size) ∨
    (∃ it frags q, v = ⟨some ⟨it.size, true⟩, [], p :: ps, some it, [], [], [], []⟩ ∧ p :: ps = frags ++ [q] ∧
      (∀ r ∈ frags, r.left ≠ 0) ∧ q.left = 0 ∧ it.data.length + (payload (p :: ps)).length ≤ it.size) := by
  cases h with
  | sending hiid hlt hmore hfirst hput hsize =>
    subst hp
    exact .inl ⟨_, _, rfl, hiid, hlt, hmore, fun hzero => cons_ne_nil _ _ (hfirst hzero), hput, hsize⟩
  | flying hmore hlast hsize =>
    dsimp only at hp
    refine .inr ⟨_, _, _, ?_, hp.symm, hmore, hlast, hp ▸ hsize⟩
    rw [hp]
  | _ => cases hp

end

end

/-! ### Lists by intent -/

section
variable {l : List Nat} {a b : Nat}

theorem filter_erase_self (h : l.filter (fun i => i = a) = [a]) : (l.erase a).filter (fun i => i = a) = [] := by
  have hcount := congrArg length h
  rw [← countP_eq_length_filter, length_singleton] at hcount
  have hone : l.count a = 1 := by
    rw [← hcount, count_eq_countP]
    rfl
  rw [filter_eq_nil_iff]
  intro i hi hia
  have hzero : (l.erase a).count a = 0 := by
    rw [count_erase_self, hone]
  exact count_eq_zero.mp hzero (of_decide_eq_true hia ▸ hi)

theorem filter_erase_ne (h : b ≠ a) : (l.erase a).filter (fun i => i = b) = l.filter (fun i => i = b) := by
  induction l with
  | nil => rfl
  | cons i l ih =>
    by_cases hi : i = a
    · subst hi
      rw [erase_cons_head, filter_cons_of_neg (by simpa using Ne.symm h)]
    · rw [erase_cons_tail (by simpa using hi), filter_cons, filter_cons, ih]

end

section
variable {x : Send} {iid size : Nat} {reuse : Bool}

@[simp] theorem about_message : (Item.message iid).about = some iid := rfl

@[simp] theorem about_done : (Item.done iid reuse).about = some iid := rfl

@[simp] theorem about_alloc : (Item.alloc size reuse).about = none := rfl

@[simp] theorem iid_rxDone : (Control.rxDone iid reuse).iid = iid := rfl

@[simp] theorem iid_intent : (Control.intent size iid).iid = iid := rfl

@[simp] theorem iid_advance : x.advance.iid = x.iid := rfl

@[simp] theorem key_piece : (x.piece iid).key = iid := rfl

end

section
variable {s t : Line} {iid : Nat}

theorem mem_view_message (h : iid ∈ s.comp.messages) : .message iid ∈ (view s iid).items := by
  obtain ⟨i, hi, hm⟩ := mem_filterMap.mp h
  cases i with
  | message j =>
    obtain rfl := Option.some.inj hm
    exact mem_filter.mpr ⟨hi, by simp⟩
  | done j reuse => cases hm
  | alloc size reuse => cases hm

theorem view_frags_ne (h : iid ∈ (s.queues .data).map Piece.key) : (view s iid).frags ≠ [] := by
  obtain ⟨p, hp, rfl⟩ := mem_map.mp h
  exact ne_nil_of_mem (mem_filter.mpr ⟨hp, by simp⟩)

/-- The bytes of an intent are read for its message and for its fragments only. -/
theorem InOrder.frame (h : InOrder s) (hsent : t.comp.sent = s.comp.sent) (hhanded : t.comp.handed = s.comp.handed)
    (hmsgs : t.comp.messages = s.comp.messages) (hdata : t.queues .data = s.queues .data)
    (hpart : ∀ iid, (.message iid ∈ (view s iid).items ∨ (view s iid).frags ≠ []) → t.comp.part iid = s.comp.part iid) :
    InOrder t := by
  have hwaiting : t.comp.waiting = s.comp.waiting := by
    unfold Chan.waiting
    rw [hmsgs]
    exact map_congr_left fun iid hiid => hpart iid (.inl (mem_view_message hiid))
  have hgathered : t.gathered = s.gathered := by
    unfold Line.gathered
    rw [hdata]
    exact Fragments.gather_congr fun iid hiid => hpart iid (.inr (view_frags_ne hiid))
  unfold InOrder
  rw [hsent, hhanded, hwaiting, hgathered]
  exact h

/-- A step about one intent. -/
theorem Staged.step (h : Staged s) (iid : Nat) (hself : Stage iid (view t iid)) (hother : ∀ j, j ≠ iid → view t j = view s j) : Staged t := by
  intro j
  by_cases hj : j = iid
  · rw [hj]
    exact hself
  · rw [hother j hj]
    exact h j

end

/- The view of an intent after a step is computed; what is left to say is its stage before and after. -/
attribute [local simp] view Chan.items onControl onData load_store load_erase Outcome.queue Outcome.control

/-! ### The sender -/

section
variable {s t : Line} {iid : Nat} {x : Send} {pre post : List Send} {sent : List (List U8)}

/-- The other sends are about other intents. -/
theorem filter_sends (hsends : s.comp.tx.sends = pre ++ x :: post) (hview : (view s x.iid).sends = [x]) :
    (pre.filter fun y => y.iid = x.iid) = [] ∧ (post.filter fun y => y.iid = x.iid) = [] := by
  have hfilter : (s.comp.tx.sends.filter fun y => y.iid = x.iid) = [x] := hview
  rw [hsends, filter_append, filter_cons_of_pos (by simp)] at hfilter
  have hlen := congrArg length hfilter
  simp only [length_append, length_cons, length_nil] at hlen
  exact ⟨eq_nil_of_length_eq_zero (by omega), eq_nil_of_length_eq_zero (by omega)⟩

theorem Stage.ofSend (h : Staged s) (hsends : s.comp.tx.sends = pre ++ x :: post) :
    ∃ it frags, view s x.iid = ⟨some ⟨it.size, true⟩, [x], frags, some it, [], [], [], []⟩ ∧ x.offset < x.data.length ∧
      (∀ p ∈ frags, p.left ≠ 0) ∧ (x.offset = 0 → frags = []) ∧ it.data ++ payload frags = x.data.take x.offset ∧
      x.data.length ≤ it.size := by
  obtain ⟨it, frags, hview, -, hrest⟩ := (h x.iid).of_send (x := x) (by simp [hsends])
  exact ⟨it, frags, hview, hrest⟩

theorem staged_start {data : List U8} {wait : Bool} (h : Staged s) (hdata : data ≠ [])
    (hfree : chooseIntent s.comp.tx.riids data.length = some iid) :
    Staged ⟨{ s.comp with
      tx := { s.comp.tx with riids := setInUse s.comp.tx.riids iid true, sends := ⟨iid, data, 0, wait⟩ :: s.comp.tx.sends }
      sent := sent }, s.queues⟩ := by
  obtain ⟨r, hload, hnot, hfits⟩ := chooseIntent_some hfree
  obtain ⟨it, hview, hempty, hsize⟩ := (h iid).of_free hload hnot
  refine h.step iid ?_ fun j hj => by simp [load_setInUse_ne hj, hj.symm]
  simp_all [load_setInUse_self hload, -filter_eq_nil_iff]
  exact .sending rfl (length_pos_iff.mpr hdata) (by simp) (by simp) (by simpa [payload]) (by simpa)

theorem payload_append {ps qs : List Frag} : payload (ps ++ qs) = payload ps ++ payload qs := flatMap_append

theorem payload_singleton {p : Frag} : payload [p] = p.data := flatMap_singleton ..

section
variable (h : Staged s) (hsends : s.comp.tx.sends = pre ++ x :: post)
include h hsends

theorem staged_put (hmore : x.advance.offset < x.data.length) :
    Staged ⟨{ s.comp with tx := { s.comp.tx with sends := pre ++ x.advance :: post }, sent := sent },
      fun k => s.queues k ++ onData [x.piece x.iid] k⟩ := by
  obtain ⟨it, frags, hview, hlt, hleft, -, hput, hsize⟩ := Stage.ofSend h hsends
  obtain ⟨hpre, hpost⟩ := filter_sends hsends (congrArg sends hview)
  have hpos := Send.chunkSize_pos hlt
  refine h.step x.iid ?_ fun j hj => by simp [hsends, hj.symm]
  simp_all [-filter_eq_nil_iff]
  refine .sending rfl hmore ?_ ?_ ?_ hsize
  · intro p hp
    rcases mem_append.mp hp with hp | hp
    · exact hleft p hp
    · rw [mem_singleton.mp hp, Send.left_piece]
      omega
  · intro hzero
    have hadv : x.advance.offset = x.offset + x.chunkSize := rfl
    omega
  · rw [payload_append, payload_singleton, ← append_assoc, hput]
    exact Send.take_advance

theorem staged_last (hlast : x.data.length ≤ x.advance.offset) :
    Staged ⟨{ s.comp with tx := ⟨s.comp.tx.riids, pre ++ post, x.iid :: s.comp.tx.unacked⟩, sent := sent },
      fun k => s.queues k ++ onData [x.piece x.iid] k⟩ := by
  obtain ⟨it, frags, hview, hlt, hleft, -, hput, hsize⟩ := Stage.ofSend h hsends
  obtain ⟨hpre, hpost⟩ := filter_sends hsends (congrArg sends hview)
  refine h.step x.iid ?_ fun j hj => by simp [hsends, hj.symm]
  simp_all [-filter_eq_nil_iff]
  refine .flying hleft ?_ ?_
  · rw [Send.left_piece]
    omega
  · have hall : it.data ++ payload (frags ++ [x.piece x.iid]) = x.data.take x.advance.offset := by
      rw [payload_append, payload_singleton, ← append_assoc, hput]
      exact Send.take_advance
    have hlen := congrArg length hall
    rw [length_append, length_take] at hlen
    omega

theorem staged_fail (hzero : x.offset = 0) :
    Staged ⟨{ s.comp with tx := ⟨setInUse s.comp.tx.riids x.iid false, pre ++ post, x.left ++ s.comp.tx.unacked⟩ },
      s.queues⟩ := by
  obtain ⟨it, frags, hview, hlt, hleft, hfirst, hput, hsize⟩ := Stage.ofSend h hsends
  obtain ⟨hpre, hpost⟩ := filter_sends hsends (congrArg sends hview)
  obtain rfl := hfirst hzero
  have hload : s.comp.tx.riids.load x.iid = some ⟨it.size, true⟩ := congrArg riid hview
  refine h.step x.iid ?_ fun j hj => by simp [hsends, hj.symm, load_setInUse_ne hj]
  simp_all [load_setInUse_self hload, -filter_eq_nil_iff]
  exact .free hput.1

end

end

/-! ### The receiver -/

section
variable {s : Line} {c : Chan} {liids : XArray LIntent} {iid j size : Nat} {it : LIntent} {reuse : Bool}

theorem load_release_ne (h : j ≠ iid) : (release liids iid reuse).load j = liids.load j := by
  unfold release
  cases reuse with
  | false => exact load_erase.trans (if_neg h)
  | true =>
    rw [if_pos rfl]
    split
    · rfl
    · exact load_store.trans (if_neg h)

/-- An intent that is reused is empty again. -/
theorem load_release_reuse (h : liids.load iid = some it) :
    (release liids iid true).load iid = some { it with data := [] } := by
  unfold release
  rw [h]
  exact load_store.trans (if_pos rfl)

theorem staged_request (h : Staged s) :
    Staged ⟨{ s.comp with rxQueue := s.comp.rxQueue ++ [.alloc size reuse] }, fun k => s.queues k ++ onControl [] k⟩ := by
  intro j
  simpa using h j

theorem staged_wake {i : Item} {q : List Item} (h : Staged s) (hidle : s.comp.thread = none) (hqueue : s.comp.rxQueue = i :: q) :
    Staged ⟨{ s.comp with thread := some i, rxQueue := q }, fun k => s.queues k ++ onControl [] k⟩ := by
  intro j
  simpa [hidle, hqueue] using h j

theorem staged_nomem (h : Staged s) (hthread : s.comp.thread = some (.alloc size reuse)) :
    Staged ⟨{ s.comp with rxQueue := .alloc size reuse :: s.comp.rxQueue, thread := none }, fun k => s.queues k ++ onControl [] k⟩ := by
  intro j
  simpa [hthread] using h j

theorem staged_callback {handed : List (List U8)} (h : Staged s) (hthread : s.comp.thread = some (.message iid)) :
    Staged ⟨{ s.comp with handed := handed, held := s.comp.held ++ [iid], thread := none }, fun k => s.queues k ++ onControl [] k⟩ := by
  obtain ⟨it, hview⟩ := (h iid).of_message (by simp [hthread])
  refine h.step iid ?_ fun j hj => by simp [hthread, hj.symm]
  simp_all [-filter_eq_nil_iff]
  exact .held

/-- After `__qcom_glink_rx_done` the intent is acknowledged, to be acknowledged again, or lost. -/
theorem Stage.released (o : Outcome) (h : reuse → ∃ it, liids.load iid = some it ∧ it.size = size) :
    Stage iid ⟨some ⟨size, true⟩, [], [], (release liids iid reuse).load iid, o.queue iid reuse, [], [], o.control iid reuse⟩ := by
  have hreuse : reuse → ∃ it, (release liids iid reuse).load iid = some it ∧ it.data = [] ∧ it.size = size := by
    rintro rfl
    obtain ⟨it, hit, rfl⟩ := h rfl
    exact ⟨_, load_release_reuse hit, rfl, rfl⟩
  cases o with
  | sent => exact .acked hreuse
  | retry => exact .undone hreuse
  | lost => exact .absent (by rintro r ⟨⟩; rfl)

theorem staged_redo {sent : Bool} (h : Staged s) (hthread : s.comp.thread = some (.done iid reuse)) :
    Staged ⟨{ s.comp with liids := release s.comp.liids iid reuse, thread := none },
      fun k => s.queues k ++ onControl (if sent then [.rxDone iid reuse] else []) k⟩ := by
  have hmem : .done iid reuse ∈ (view s iid).items := by simp [hthread]
  obtain ⟨size, liid, hview, hreuse⟩ := (h iid).of_done hmem
  have hreused : reuse → ∃ it, s.comp.liids.load iid = some it ∧ it.size = size := by
    intro hr
    obtain ⟨it, rfl, -, hsize⟩ := hreuse hr
    exact ⟨it, congrArg liid hview, hsize⟩
  have hrel := Stage.released (if sent then .sent else .lost) hreused
  refine h.step iid ?_ fun j hj => by cases sent <;> simp [hthread, hj.symm, load_release_ne hj]
  cases sent <;> simp_all [-filter_eq_nil_iff]

theorem staged_alloc (h : Staged s) (hthread : s.comp.thread = some (.alloc size reuse))
    (hunused : view s iid = ⟨none, [], [], none, [], [], [], []⟩) :
    Staged ⟨{ s.comp with liids := s.comp.liids.store iid ⟨size, reuse, []⟩, fresh := s.comp.fresh ++ [iid], thread := none },
      fun k => s.queues k ++ onControl [] k⟩ := by
  refine h.step iid ?_ fun j hj => by simp [hthread, hj, hj.symm]
  simp_all [-filter_eq_nil_iff]
  exact .fresh (by rfl)

theorem staged_advertise {sent : Bool} (h : Staged s) (hmem : iid ∈ s.comp.fresh) (hfound : s.comp.liids.load iid = some it) :
    Staged ⟨{ s.comp with fresh := s.comp.fresh.erase iid },
      fun k => s.queues k ++ onControl (if sent then [.intent it.size iid] else []) k⟩ := by
  obtain ⟨it', hview, hempty⟩ := (h iid).of_fresh (by simpa using hmem)
  have hgone := filter_erase_self (congrArg fresh hview)
  refine h.step iid ?_ fun j hj => by cases sent <;> simp [hj.symm, filter_erase_ne hj]
  cases sent <;> simp_all [-filter_eq_nil_iff]
  · exact .absent (by rintro r ⟨⟩)
  · exact .advertised hempty

theorem staged_done {o : Outcome} (h : Staged s) (hmem : iid ∈ s.comp.held) (hfound : s.comp.liids.load iid = some it) :
    Staged ⟨{ s.comp with
        liids := release s.comp.liids iid it.reuse
        held := s.comp.held.erase iid
        rxQueue := s.comp.rxQueue ++ o.queue iid it.reuse }, fun k => s.queues k ++ onControl (o.control iid it.reuse) k⟩ := by
  obtain ⟨it', hview⟩ := (h iid).of_held (by simpa using hmem)
  have hgone := filter_erase_self (congrArg held hview)
  have hrel := Stage.released o fun _ : it.reuse => ⟨it, hfound, rfl⟩
  refine h.step iid ?_ fun j hj => by cases o <;> simp [hj.symm, load_release_ne hj, filter_erase_ne hj]
  cases o <;> simp_all [-filter_eq_nil_iff]

end

/-! ### Commands that come back -/

section
variable {s : Line} {tx : Sender} {q : (k : Lane) → List k.Msg} {iid size : Nat} {reuse : Bool} {m : Control}

theorem popped_control (hpop : Mux.Popped s.queues q .control m) :
    s.queues .control = m :: q .control ∧ q .data = s.queues .data := ⟨hpop.1, hpop.2 .data (by rintro ⟨⟩)⟩

theorem staged_rxDone (h : Staged s) (hpop : Mux.Popped s.queues q .control (.rxDone iid reuse))
    (hstep : Intents.Step s.comp.tx (.rxDone iid reuse) tx) : Staged ⟨{ s.comp with tx := tx }, q⟩ := by
  obtain ⟨hcontrol, hdata⟩ := popped_control hpop
  have hmem : .rxDone iid reuse ∈ (view s iid).control := by simp [hcontrol]
  obtain ⟨size, liid, hview, hreuse⟩ := (h iid).of_rxDone hmem
  have hload : s.comp.tx.riids.load iid = some ⟨size, true⟩ := congrArg riid hview
  cases hstep with
  | invalid hfound => cases hfound.symm.trans hload
  | rxDone hfound =>
    refine h.step iid ?_ fun j hj => by cases reuse <;> simp [hcontrol, hdata, hj, hj.symm, load_setInUse_ne hj]
    cases reuse with
    | true =>
      obtain ⟨it, rfl, hempty, rfl⟩ := hreuse rfl
      simp_all [load_setInUse_self hload, -filter_eq_nil_iff]
      exact .free hempty
    | false =>
      simp_all [-filter_eq_nil_iff]
      exact .absent (by rintro r ⟨⟩)

theorem staged_intent (h : Staged s) (hpop : Mux.Popped s.queues q .control (.intent size iid))
    (hstep : Intents.Step s.comp.tx (.intent size iid) tx) : Staged ⟨{ s.comp with tx := tx }, q⟩ := by
  obtain ⟨hcontrol, hdata⟩ := popped_control hpop
  have hmem : .intent size iid ∈ (view s iid).control := by simp [hcontrol]
  obtain ⟨it, hview, hempty, rfl⟩ := (h iid).of_intent hmem
  have hload : s.comp.tx.riids.load iid = none := congrArg riid hview
  cases hstep with
  | taken hold => cases hold.symm.trans hload
  | intent hnew =>
    refine h.step iid ?_ fun j hj => by simp [hcontrol, hdata, hj, hj.symm]
    simp_all [-filter_eq_nil_iff]
    exact .free hempty

end

/-! ### A fragment -/

section
variable {s : Line} {c : Chan} {q : (k : Lane) → List k.Msg} {p : Frag} {iters j : Nat} {it : LIntent} {fs : List Frag}

/-- The intent with the fragment appended. -/
def filled (it : LIntent) (p : Frag) : LIntent := { it with data := it.data ++ p.data }

def appended (c : Chan) (p : Frag) (it : LIntent) : Chan := { c with liids := c.liids.store p.key (filled it p) }

theorem rxData_eq (hload : c.liids.load p.key = some it) (hroom : it.data.length + p.data.length ≤ it.size) :
    rxData c p iters = if p.left = 0 then rxDataHandler (appended c p it) p.key iters (filled it p) else appended c p it := by
  unfold rxData
  rw [hload]
  dsimp only
  rw [if_neg (by omega)]
  rfl

theorem view_frags (hpop : Mux.Popped s.queues q .data p) :
    (view s p.key).frags = p :: (q .data).filter fun p' => p'.key = p.key := by
  have hdata : s.queues .data = p :: q .data := hpop.1
  unfold view
  rw [hdata, filter_cons_of_pos (by simp)]

theorem payload_cons : payload (p :: fs) = p.data ++ payload fs := flatMap_cons ..

/-- A fragment at the head of the FIFO has room in its intent, and the stage after it. -/
theorem Stage.pop {v : View} (h : Stage p.key v) (hfrags : v.frags = p :: fs) :
    ∃ it, v.liid = some it ∧ it.data.length + p.data.length ≤ it.size ∧
      v.items = [] ∧ v.held = [] ∧ v.fresh = [] ∧ v.control = [] ∧
      (p.left ≠ 0 → Stage p.key ⟨v.riid, v.sends, fs, some (filled it p), [], [], [], []⟩) ∧
      (p.left = 0 → fs = [] ∧ v.riid = some ⟨it.size, true⟩ ∧ v.sends = []) := by
  rcases h.of_frag hfrags with ⟨it, x, rfl, hiid, hlt, hmore, hpos, hput, hsize⟩ | ⟨it, frags, l, rfl, heq, hmore, hlast, hsize⟩
  · rw [payload_cons] at hput
    have hlen := congrArg length hput
    rw [length_append, length_append, length_take] at hlen
    refine ⟨it, rfl, by omega, rfl, rfl, rfl, rfl, fun _ => ?_, fun hzero => absurd hzero (hmore p mem_cons_self)⟩
    have hput' : (filled it p).data ++ payload fs = x.data.take x.offset := (append_assoc ..).trans hput
    exact .sending hiid hlt (fun r hr => hmore r (.tail _ hr)) (fun hz => absurd hz hpos) hput' hsize
  · rw [payload_cons, length_append] at hsize
    refine ⟨it, rfl, by omega, rfl, rfl, rfl, rfl, fun hne => ?_, fun hzero => ?_⟩
    · cases frags with
      | nil =>
        obtain ⟨rfl, -⟩ := cons.inj heq
        exact absurd hlast hne
      | cons f frags =>
        obtain ⟨rfl, hfs⟩ : p = f ∧ fs = frags ++ [l] := cons.inj heq
        subst hfs
        have hroom : (filled it p).data.length + (payload (frags ++ [l])).length ≤ (filled it p).size := by
          unfold filled
          dsimp only
          rw [length_append]
          omega
        exact .flying (fun r hr => hmore r (.tail _ hr)) hlast hroom
    · cases frags with
      | nil => exact ⟨(cons.inj heq).2, rfl, rfl⟩
      | cons f frags =>
        obtain ⟨rfl, -⟩ := cons.inj heq
        exact absurd hzero (hmore p mem_cons_self)

theorem load_appended_self : (appended c p it).liids.load p.key = some (filled it p) := load_store.trans (if_pos rfl)

theorem load_appended_ne (hj : j ≠ p.key) : (appended c p it).liids.load j = c.liids.load j := load_store.trans (if_neg hj)

theorem staged_rx (h : Staged s) (hpop : Mux.Popped s.queues q .data p) : Staged ⟨rxData s.comp p iters, q⟩ := by
  have hdata : s.queues .data = p :: q .data := hpop.1
  have hcontrol : q .control = s.queues .control := hpop.2 .control (by rintro ⟨⟩)
  obtain ⟨it, hload, hroom, hitems, hheld, hfresh, hctl, hmore, hlast⟩ := (h p.key).pop (view_frags hpop)
  rw [rxData_eq hload hroom]
  unfold rxDataHandler
  refine h.step p.key ?_ fun j hj => by split_ifs <;> simp [hdata, hcontrol, hj, hj.symm, appended]
  by_cases hleft : p.left = 0
  · obtain ⟨hfs, hriid, hsends⟩ := hlast hleft
    have hstage : ∀ e : LIntent, Stage p.key ⟨some ⟨e.size, true⟩, [], [], some e, [], [p.key], [], []⟩ ∧
        Stage p.key ⟨some ⟨e.size, true⟩, [], [], some e, [.message p.key], [], [], []⟩ := fun _ => ⟨.held, .waiting⟩
    split_ifs
    · -- the callback is called in irq context
      simp_all [appended, -filter_eq_nil_iff]
      exact (hstage { filled it p with data := [] }).1
    · -- the message is left to the thread
      simp_all [appended, -filter_eq_nil_iff]
      exact (hstage (filled it p)).2
  · simp_all [appended, -filter_eq_nil_iff]

end

end Sm8850.Glink.Channel
