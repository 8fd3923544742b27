import Sm8850.Glink.Delivery

/-! The messages of a channel with intents are handed over in order, in every run of any channels that share
the FIFOs. -/
namespace Sm8850.Glink.Channel
open List Lts Function Fragments Edge Chan

attribute [local simp] Chan.items Chan.messages

open Intents (Send RIntent Sender)
open Fragments (Piece gather rest absorb completed)

section
variable {s t : Line} {c : Chan} {q : (k : Lane) → List k.Msg} {l : List Control} {p : Frag} {x : Send} {pre post : List Send}
  {iid j iters : Nat} {it : LIntent}

theorem part_eq (h : c.liids.load iid = some it) : c.part iid = it.data := by
  unfold part
  rw [h]
  rfl

theorem part_congr {c' : Chan} (h : c'.liids.load iid = c.liids.load iid) : c'.part iid = c.part iid := by
  unfold part
  rw [h]

@[simp] theorem message?_message : (Item.message iid).message? = some iid := rfl

@[simp] theorem message?_done {reuse : Bool} : (Item.done iid reuse).message? = none := rfl

@[simp] theorem message?_alloc {size : Nat} {reuse : Bool} : (Item.alloc size reuse).message? = none := rfl

section
variable (h : InOrder s) (hsent : c.sent = s.comp.sent) (hhanded : c.handed = s.comp.handed)
  (hmsgs : c.messages = s.comp.messages)
include h hsent hhanded hmsgs

/-- A step of the receiver that calls no callback and takes no fragment, and changes an intent with neither a
message nor fragments. -/
theorem inOrder_receiver (iid : Nat) (hliids : ∀ j, j ≠ iid → c.liids.load j = s.comp.liids.load j)
    (hmessage : .message iid ∉ (view s iid).items) (hfrags : (view s iid).frags = []) :
    InOrder ⟨c, fun k => s.queues k ++ onControl l k⟩ := by
  refine h.frame hsent hhanded hmsgs (append_nil _) fun j hj => ?_
  by_cases hji : j = iid
  · subst hji
    rcases hj with hj | hj
    · exact absurd hj hmessage
    · exact absurd hfrags hj
  · exact part_congr (hliids j hji)

/-- A step that changes nothing the messages depend on. -/
theorem inOrder_same (hliids : c.liids = s.comp.liids) (hdata : q .data = s.queues .data) : InOrder ⟨c, q⟩ := by
  refine h.frame hsent hhanded hmsgs hdata fun j _ => ?_
  unfold part
  rw [hliids]

end

theorem inOrder_callback {held : List Nat} (h : InOrder s) (hthread : s.comp.thread = some (.message iid))
    (hload : s.comp.liids.load iid = some it) :
    InOrder ⟨{ s.comp with handed := s.comp.handed ++ [it.data], held := held, thread := none }, fun k => s.queues k ++ onControl [] k⟩ := by
  simp [InOrder, waiting, Line.gathered, onControl, hthread, part_eq hload] at h ⊢
  exact h

/-- What is on the FIFO of a message that is being sent is what has been put. -/
theorem rest_sending (h : Staged s) (hsends : s.comp.tx.sends = pre ++ x :: post) :
    rest s.comp.part (s.queues .data) x.iid = x.data.take x.offset := by
  obtain ⟨it, frags, hview, -, hleft, -, hput, -⟩ := Stage.ofSend h hsends
  have hload : s.comp.liids.load x.iid = some it := congrArg View.liid hview
  have hfrags : ((s.queues .data).filter fun p => p.key = x.iid) = frags := congrArg View.frags hview
  rw [← rest_filter, hfrags, rest_more ?_ hleft, part_eq hload]
  · exact hput
  · intro p hp
    rw [← hfrags] at hp
    exact of_decide_eq_true (mem_filter.mp hp).2

theorem inOrder_put {tx : Sender} (hstaged : Staged s) (h : InOrder s) (hsends : s.comp.tx.sends = pre ++ x :: post) :
    InOrder ⟨{ s.comp with tx := tx, sent := if (x.piece x.iid).left = 0 then s.comp.sent ++ [x.data] else s.comp.sent },
      fun k => s.queues k ++ onData [x.piece x.iid] k⟩ := by
  have hrest := rest_sending hstaged hsends
  have hgathered : gather s.comp.part (s.queues .data ++ [x.piece x.iid]) =
      s.gathered ++ completed (rest s.comp.part (s.queues .data)) (x.piece x.iid) := by
    rw [gather_append, gather_cons, gather_nil, append_nil]
    rfl
  refine Eq.trans ?_ (congrArg (s.comp.handed ++ s.comp.waiting ++ ·) hgathered.symm)
  by_cases hleft : (x.piece x.iid).left = 0
  · have hle : x.data.length ≤ x.advance.offset := by
      rw [Send.left_piece] at hleft
      omega
    have hall : rest s.comp.part (s.queues .data) x.iid ++ (x.piece x.iid).data = x.data := by
      rw [hrest, Send.take_advance, take_of_length_le hle]
    rw [if_pos hleft, completed_last hleft, key_piece, hall, ← append_assoc, ← h]
  · rw [if_neg hleft, completed_more hleft, append_nil]
    exact h

/-- The fragments behind the last one of a message are of other intents. -/
theorem gather_others {f : Nat → List U8} (hfs : ((q .data).filter fun p' => p'.key = p.key) = [])
    (hf : ∀ j, j ≠ p.key → f j = s.comp.part j) : gather f (q .data) = gather (absorb s.comp.part p) (q .data) := by
  refine gather_congr fun j hj => ?_
  obtain ⟨p', hp', rfl⟩ := mem_map.mp hj
  have hne : p'.key ≠ p.key := by simpa using filter_eq_nil_iff.mp hfs p' hp'
  rw [absorb_ne hne, hf _ hne]

theorem inOrder_rx (hstaged : Staged s) (h : InOrder s) (hpop : Mux.Popped s.queues q .data p)
    (hok : s.comp.Direct iters → p.left = 0 → ∀ iid, s.comp.thread ≠ some (.message iid)) : InOrder ⟨rxData s.comp p iters, q⟩ := by
  obtain ⟨it, hload, hroom, hitems, -, -, -, -, hlast⟩ := (hstaged p.key).pop (view_frags hpop)
  have hnot : p.key ∉ s.comp.messages := by
    intro hm
    have hin := mem_view_message hm
    rw [hitems] at hin
    cases hin
  have hpart : s.comp.part p.key = it.data := part_eq hload
  have hdata : s.queues .data = p :: q .data := hpop.1
  unfold InOrder Line.gathered at h
  rw [hdata, gather_cons] at h
  rw [rxData_eq hload hroom]
  have hsame : ∀ j, j ≠ p.key → (appended s.comp p it).part j = s.comp.part j := fun j hj => part_congr (load_appended_ne hj)
  have hself : (appended s.comp p it).part p.key = it.data ++ p.data := part_eq load_appended_self
  have hmap : s.comp.messages.map (appended s.comp p it).part = s.comp.waiting :=
    map_congr_left fun j hj => hsame j fun he => hnot (he ▸ hj)
  by_cases hleft : p.left = 0
  · obtain ⟨hfs, -, -⟩ := hlast hleft
    rw [completed_last hleft, hpart] at h
    rw [if_pos hleft]
    unfold rxDataHandler
    split
    · -- the callback is called in irq context
      next hdirect =>
      have hnone : s.comp.messages = [] := by
        have hthread := hok hdirect hleft
        have hqueue : s.comp.rxQueue = [] := hdirect.2.2
        rcases hth : s.comp.thread with _ | ⟨j⟩ | ⟨j, reuse⟩ | ⟨size, reuse⟩ <;> simp_all
      change s.comp.sent = s.comp.handed ++ [it.data ++ p.data] ++ map _ s.comp.messages ++ gather _ (q .data)
      rw [hnone, gather_others hfs fun j hj => (part_congr (XArray.load_store.trans (if_neg hj))).trans (hsame j hj)]
      rw [show s.comp.waiting = [] from congrArg (map _) hnone] at h
      simpa using h
    · -- the message is left to the thread
      have hmsgs : messages { appended s.comp p it with rxQueue := (appended s.comp p it).rxQueue ++ [.message p.key] } =
          s.comp.messages ++ [p.key] := by simp [appended]
      change s.comp.sent = s.comp.handed ++ map (appended s.comp p it).part (messages _) ++
        gather (appended s.comp p it).part (q .data)
      rw [hmsgs, map_append, hmap, map_singleton, hself, gather_others hfs hsame, h]
      simp
  · rw [completed_more hleft, nil_append] at h
    rw [if_neg hleft]
    have habsorb : (appended s.comp p it).part = absorb s.comp.part p := by
      funext j
      by_cases hj : j = p.key
      · rw [hj, absorb_more hleft, hpart, hself]
      · rw [absorb_ne hj, hsame j hj]
    change s.comp.sent = s.comp.handed ++ map _ s.comp.messages ++ gather _ (q .data)
    rw [hmap, habsorb, h]
end

/-! ### Runs -/

section
variable {s t : Line} {e : Event} {c : Chan} {out : (k : Lane) → List k.Msg}

theorem act_step (hact : Act s.comp e out c) (hok : Proper s e) (hstaged : Staged s) (h : InOrder s) :
    Staged ⟨c, fun k => s.queues k ++ out k⟩ ∧ InOrder ⟨c, fun k => s.queues k ++ out k⟩ := by
  have hquiet : (fun k => s.queues k ++ onData [] k) = s.queues := by
    funext k
    cases k <;> exact append_nil _
  cases hact with
  | @start data wait tx hstep =>
    rw [hquiet]
    cases hstep with
    | empty hfree => exact absurd rfl hok
    | start hfree hdata =>
      refine ⟨staged_start hstaged hdata hfree, inOrder_same h ?_ rfl rfl rfl rfl⟩
      exact if_neg hdata
  | @put x tx hstep =>
    cases hstep with
    | put hsends hmore => exact ⟨staged_put hstaged hsends hmore, inOrder_put hstaged h hsends⟩
    | last hsends hlast => exact ⟨staged_last hstaged hsends hlast, inOrder_put hstaged h hsends⟩
  | @fail x tx hstep =>
    rw [hquiet]
    cases hstep with
    | fail hsends => exact ⟨staged_fail hstaged hsends hok, inOrder_same h rfl rfl rfl rfl rfl⟩
  | request =>
    exact ⟨staged_request hstaged, inOrder_same h rfl rfl (by simp) rfl (append_nil _)⟩
  | @wake i q hidle hqueue =>
    exact ⟨staged_wake hstaged hidle hqueue, inOrder_same h rfl rfl (by simp [hidle, hqueue]) rfl (append_nil _)⟩
  | callback hthread hfound =>
    exact ⟨staged_callback hstaged hthread, inOrder_callback h hthread hfound⟩
  | @redo iid reuse sent hthread =>
    refine ⟨staged_redo hstaged hthread, ?_⟩
    have hmem : .done iid reuse ∈ (view s iid).items := by simp [view, hthread]
    obtain ⟨size, liid, hview, -⟩ := (hstaged iid).of_done hmem
    refine inOrder_receiver h rfl rfl (by simp [hthread, filterMap_cons]) iid (fun j hj => load_release_ne hj) ?_ (congrArg View.frags hview)
    rw [hview]
    intro hin
    cases mem_singleton.mp hin
  | @alloc size iid reuse hthread hfree =>
    refine ⟨staged_alloc hstaged hthread hok, ?_⟩
    refine inOrder_receiver h rfl rfl (by simp [hthread, filterMap_cons]) iid (fun j hj => XArray.load_store.trans (if_neg hj)) ?_
      (congrArg View.frags hok)
    rw [show (view s iid).items = [] from congrArg View.items hok]
    exact not_mem_nil
  | nomem hthread =>
    exact ⟨staged_nomem hstaged hthread, inOrder_same h rfl rfl (by simp [hthread]) rfl (append_nil _)⟩
  | advertise hfresh hfound => exact ⟨staged_advertise hstaged hfresh hfound, inOrder_same h rfl rfl rfl rfl (append_nil _)⟩
  | @done iid it o hheld hfound =>
    refine ⟨staged_done hstaged hheld hfound, ?_⟩
    obtain ⟨it', hview⟩ := (hstaged iid).of_held (by simpa [view] using hheld)
    refine inOrder_receiver h rfl rfl (by cases o <;> simp [Outcome.queue]) iid (fun j hj => load_release_ne hj) ?_ (congrArg View.frags hview)
    rw [hview]
    exact not_mem_nil

/-- A proper step of a channel keeps the stages and the order. -/
theorem delivery_step (hstep : Mux.AloneStep behaviour s e t) (hok : Proper s e) (h : Staged s ∧ InOrder s) : Staged t ∧ InOrder t := by
  obtain ⟨hstaged, horder⟩ := h
  cases hstep with
  | act hact => exact act_step hact hok hstaged horder
  | take hpop htake =>
    cases htake with
    | rx =>
      refine ⟨staged_rx hstaged hpop, inOrder_rx hstaged horder hpop ?_⟩
      intro hdirect hleft
      exact hok hdirect _ _ hpop.1 hleft
    | rxDone hstep => exact ⟨staged_rxDone hstaged hpop hstep, inOrder_same horder rfl rfl rfl rfl (hpop.2 .data (by rintro ⟨⟩))⟩
    | intent hstep => exact ⟨staged_intent hstaged hpop hstep, inOrder_same horder rfl rfl rfl rfl (hpop.2 .data (by rintro ⟨⟩))⟩

/-- Nothing of the channel is on the data FIFO or left to the thread. -/
def Drained (s : Line) : Prop := s.queues .data = [] ∧ s.comp.messages = []

theorem InOrder.handed_eq (h : InOrder s) (hdrained : Drained s) : s.comp.handed = s.comp.sent := by
  have hwaiting : s.comp.waiting = [] := congrArg (map _) hdrained.2
  have hgathered : s.gathered = [] := congrArg (gather _) hdrained.1
  rw [h, hwaiting, hgathered, append_nil, append_nil]

theorem InOrder.handed_le (h : InOrder s) : s.comp.handed <+: s.comp.sent :=
  ⟨s.comp.waiting ++ s.gathered, (append_assoc ..).symm.trans h.symm⟩

theorem staged_initial {cbIrq : Nat → Bool} (ch : Nat) : Staged (Mux.proj ch (initial cbIrq)) := by
  intro iid
  refine .absent ?_
  rintro r ⟨⟩

/-- In every state of a run whose steps are all proper, what each channel's callback has been given is a part of
the messages sent, in the order of their last fragments, and all of it once nothing is on its way. -/
theorem intents_deliver {cbIrq : Nat → Bool} {run : List ((Nat × Event) × Edge)}
    (hrun : Lts.Path (Mux.SharedStep behaviour) (Edge.initial cbIrq) run) (hok : Steps (Mux.Each Proper) (Edge.initial cbIrq) run) :
    ∀ u ∈ Edge.initial cbIrq :: run.map Prod.snd, ∀ ch,
      InOrder (Mux.proj ch u) ∧ (u.comp ch).handed <+: (u.comp ch).sent ∧
      (Drained (Mux.proj ch u) → (u.comp ch).handed = (u.comp ch).sent) := by
  have hinv := Mux.invariant_of_steps (I := fun s => Staged s ∧ InOrder s) (fun _ _ _ hstep hok h => delivery_step hstep hok h) hrun hok
    fun ch => ⟨staged_initial ch, rfl⟩
  intro u hu ch
  obtain ⟨-, horder⟩ := hinv u hu ch
  exact ⟨horder, horder.handed_le, horder.handed_eq⟩

end

/-! One channel, whose callback may be called in irq context, with two intents of 8 bytes. -/

/-- The edge after a step of channel 0 by itself, and after it has taken a message. -/
def Edge.act (c : Chan → Chan) (out : (k : Lane) → List k.Msg) (s : Edge) : Edge :=
  ⟨update s.comp 0 (c (s.comp 0)), fun k => s.queues k ++ (out k).map (Prod.mk 0)⟩

def Edge.take (c : Chan → Chan) (k : Lane) (s : Edge) : Edge :=
  ⟨update s.comp 0 (c (s.comp 0)), update s.queues k (s.queues k).tail⟩

theorem Edge.take_step {s : Edge} {k : Lane} {m : k.Msg} {rest : List (Nat × k.Msg)} {c : Chan → Chan} {e : Event}
    (hq : s.queues k = (0, m) :: rest) (h : Take (s.comp 0) k m e (c (s.comp 0))) :
    Mux.SharedStep behaviour s (0, e) (take c k s) := by
  refine .take (k := k) (m := m) ⟨?_, fun k' hk' => update_of_ne hk' ..⟩ h
  rw [update_self, hq]
  rfl

/-- The states that the steps of a script lead to. -/
def runOf (s : Edge) : List (Event × (Edge → Edge)) → List ((Nat × Event) × Edge)
  | [] => []
  | (e, f) :: script => ((0, e), f s) :: runOf (f s) script

/-- An intent is allocated and advertised. -/
def allocate (iid : Nat) : List (Event × (Edge → Edge)) :=
  [(.request 8 false, Edge.act (fun c => { c with rxQueue := c.rxQueue ++ [.alloc 8 false] }) (onData [])),
    (.wake, Edge.act (fun c => { c with thread := some (.alloc 8 false), rxQueue := [] }) (onData [])),
    (.alloc iid, Edge.act (fun c => { c with liids := c.liids.store iid ⟨8, false, []⟩, fresh := c.fresh ++ [iid], thread := none }) (onData [])),
    (.advertise iid true, Edge.act (fun c => { c with fresh := c.fresh.erase iid }) (onControl [.intent 8 iid])),
    (.tx (.intent 8 iid), Edge.take (fun c => { c with tx := { c.tx with riids := c.tx.riids.store iid ⟨8, false⟩ } }) .control)]

/-- A message of one fragment is sent. -/
def sendOne (iid : Nat) (d : List U8) : List (Event × (Edge → Edge)) :=
  [(.tx (.start d true), Edge.act (fun c => { c with tx := { c.tx with
      riids := Intents.setInUse c.tx.riids iid true, sends := ⟨iid, d, 0, true⟩ :: c.tx.sends } }) (onData [])),
    (.tx (.put ⟨iid, d, 0, true⟩), Edge.act (fun c => { c with tx := ⟨c.tx.riids, [], iid :: c.tx.unacked⟩, sent := c.sent ++ [d] })
      (onData [⟨iid, d, 0⟩]))]

def receive (iid iters : Nat) (d : List U8) : Event × (Edge → Edge) := (.rx iters, Edge.take (rxData · ⟨iid, d, 0⟩ iters) .data)

def irqEdge : Edge := Edge.initial fun _ => true

theorem advertise_eight {c : Chan} {iid : Nat} (hfresh : iid ∈ c.fresh) (hfound : c.liids.load iid = some ⟨8, false, []⟩) :
    Act c (.advertise iid true) (onControl [.intent 8 iid]) { c with fresh := c.fresh.erase iid } := .advertise hfresh hfound

theorem callback_data {c : Chan} {iid : Nat} {d : List U8} (hthread : c.thread = some (.message iid))
    (hfound : c.liids.load iid = some ⟨8, false, d⟩) :
    Act c .callback (onData []) { c with handed := c.handed ++ [d], held := c.held ++ [iid], thread := none } :=
  .callback hthread hfound

theorem put_only {tx : Sender} {x : Send} (hsends : tx.sends = [x]) (hlast : x.data.length ≤ x.advance.offset) :
    Intents.Step tx (.put x) ⟨tx.riids, [], x.iid :: tx.unacked⟩ := .last (show tx.sends = [] ++ x :: [] from hsends) hlast

/-- The callback is called in irq context. -/
def directRun : List ((Nat × Event) × Edge) := runOf irqEdge (allocate 1 ++ sendOne 1 [7] ++ [receive 1 0 [7]])

theorem path_directRun : Lts.Path (Mux.SharedStep behaviour) irqEdge directRun :=
  ⟨.act .request, .act (.wake rfl rfl), .act (.alloc rfl rfl), .act (advertise_eight (by decide) rfl),
    take_step rfl (.intent (.intent rfl)), .act (.start (.start rfl (by decide))),
    .act (.put (put_only (x := ⟨1, [7], 0, true⟩) rfl (by decide))), take_step rfl .rx, trivial⟩

theorem intents_deliver_direct : ((final irqEdge directRun).comp 0).handed = [[7]] := by
  refine (intents_deliver path_directRun ?_ _ (final_mem ..) 0).2.2 ⟨rfl, rfl⟩
  refine ⟨trivial, trivial, rfl, trivial, trivial, by simp [Mux.Each, Proper], trivial, ?_, trivial⟩
  rintro - p ps - - iid ⟨⟩

/-- An empty message is sent. -/
def emptyRun : List ((Nat × Event) × Edge) :=
  runOf irqEdge (allocate 1 ++ [(.tx (.start [] true), Edge.act (fun c => { c with
    tx := { c.tx with riids := Intents.setInUse c.tx.riids 1 true }, sent := c.sent ++ [[]] }) (onData []))])

theorem path_emptyRun : Lts.Path (Mux.SharedStep behaviour) irqEdge emptyRun :=
  ⟨.act .request, .act (.wake rfl rfl), .act (.alloc rfl rfl), .act (advertise_eight (by decide) rfl),
    take_step rfl (.intent (.intent rfl)), .act (.start (.empty rfl)), trivial⟩

/-- The first message is left to the thread, which takes it off the queue. Before it calls the callback the second
message is received in irq context. -/
def overtakenRun : List ((Nat × Event) × Edge) :=
  runOf irqEdge (allocate 1 ++ allocate 2 ++ sendOne 1 [1] ++ sendOne 2 [2] ++
    [receive 1 10 [1], (.wake, Edge.act (fun c => { c with thread := some (.message 1), rxQueue := [] }) (onData [])),
      receive 2 0 [2], (.callback, Edge.act (fun c => { c with handed := c.handed ++ [[1]], held := c.held ++ [1], thread := none }) (onData []))])

theorem path_overtakenRun : Lts.Path (Mux.SharedStep behaviour) irqEdge overtakenRun :=
  ⟨.act .request, .act (.wake rfl rfl), .act (.alloc rfl rfl), .act (advertise_eight (by decide) rfl), take_step rfl (.intent (.intent rfl)),
    .act .request, .act (.wake rfl rfl), .act (.alloc rfl rfl), .act (advertise_eight (by decide) rfl), take_step rfl (.intent (.intent rfl)),
    .act (.start (.start rfl (by decide))), .act (.put (put_only (x := ⟨1, [1], 0, true⟩) rfl (by decide))),
    .act (.start (.start rfl (by decide))), .act (.put (put_only (x := ⟨2, [2], 0, true⟩) rfl (by decide))),
    take_step rfl .rx, .act (.wake rfl rfl), take_step rfl .rx, .act (callback_data rfl rfl), trivial⟩

/-- A message whose send returned success is never handed over, and two are handed over in the wrong order. -/
theorem intents_lose_and_reorder :
    (Lts.Path (Mux.SharedStep behaviour) irqEdge emptyRun ∧ Drained (Mux.proj 0 (final irqEdge emptyRun)) ∧
      ((final irqEdge emptyRun).comp 0).sent = [[]] ∧ ((final irqEdge emptyRun).comp 0).handed = []) ∧
    (Lts.Path (Mux.SharedStep behaviour) irqEdge overtakenRun ∧ Drained (Mux.proj 0 (final irqEdge overtakenRun)) ∧
      ((final irqEdge overtakenRun).comp 0).sent = [[1], [2]] ∧ ((final irqEdge overtakenRun).comp 0).handed = [[2], [1]]) :=
  ⟨⟨path_emptyRun, ⟨rfl, rfl⟩, rfl, rfl⟩, ⟨path_overtakenRun, ⟨rfl, rfl⟩, rfl, rfl⟩⟩

end Sm8850.Glink.Channel
