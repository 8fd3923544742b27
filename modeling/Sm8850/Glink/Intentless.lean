import Sm8850.Lib.Mux
import Sm8850.Glink.Intents

/-! Channels of drivers/rpmsg/qcom_glink_native.c on an edge without intents: `__qcom_glink_send` at one end,
`qcom_glink_rx_data` and the channel's thread at the other. -/
namespace Sm8850.Glink.Intentless
open List Function Option Lts Fragments

open Intents (Send)
open Fragments (Piece gather rest absorb completed)

/-- A fragment of the channel's messages. -/
abbrev Frag := Piece Unit U8

/-- `struct glink_core_rx_intent`: the bytes up to `offset` are `data`. -/
structure Intent where
  size : Nat
  data : List U8

/-- A channel at both its ends. `sent` are the messages whose send has returned success, `handed` those the
callback was given. The intents are kept by address; `thread` is the one the thread has taken off the
queue, and `fault` says that a freed one was used. -/
structure Chan where
  sending : Option Send
  sent : List (List U8)
  intents : Nat → Intent
  next : Nat
  buf : Option Nat
  rxQueue : List Nat
  thread : Option Nat
  freed : List Nat
  fault : Bool
  cbIrq : Bool
  handed : List (List U8)

open Chan

def Chan.initial (cbIrq : Bool) : Chan := ⟨none, [], fun _ => ⟨0, []⟩, 0, none, [], none, [], false, cbIrq, []⟩

def glinkIrqIterationLimits : Nat := 10

/-- Call the callback. Afterwards the intent is freed or deferred, and nothing refers to it any more. -/
def callNow (c : Chan) (a : Nat) : Chan := { c with handed := c.handed ++ [(c.intents a).data], buf := none }

/-- Leave the intent to the channel's thread. -/
def queueIntent (c : Chan) (a : Nat) : Chan := { c with rxQueue := c.rxQueue ++ [a] }

def rxDataHandler (c : Chan) (a iters : Nat) : Chan :=
  if c.cbIrq ∧ iters < glinkIrqIterationLimits ∧ c.rxQueue = [] then callNow c a else queueIntent c a

/-- `qcom_glink_rx_data` from where it has the intent. -/
def fill (c : Chan) (a : Nat) (p : Frag) (iters : Nat) : Chan :=
  if a ∈ c.freed then { c with fault := true }
  else
    let it := c.intents a
    if it.size - it.data.length < p.data.length then c
    else
      let c := { c with intents := update c.intents a { it with data := it.data ++ p.data } }
      if p.left = 0 then rxDataHandler c a iters else c

/-- `qcom_glink_rx_data` where its allocations succeed. -/
def rxData (c : Chan) (p : Frag) (iters : Nat) : Chan :=
  match c.buf with
  | some a => fill c a p iters
  | none =>
    let a := c.next
    fill { c with intents := update c.intents a ⟨p.data.length + p.left, []⟩, next := a + 1, buf := some a } a p iters

inductive Event where
  | start (data : List U8) (wait : Bool)
  | put
  | fail
  | rx (iters : Nat)
  | nomem
  | wake
  | callback

/-- The steps other than receiving a fragment. A send puts its fragments one after the other, and returns
after the last; without intents an empty message has none. -/
inductive Act : Chan → Event → (Unit → List Frag) → Chan → Prop
  | start {c : Chan} {data : List U8} {wait : Bool} (hidle : c.sending = none) (hdata : data ≠ []) :
      Act c (.start data wait) (fun _ => []) { c with sending := some ⟨0, data, 0, wait⟩ }
  | empty {c : Chan} {wait : Bool} (hidle : c.sending = none) :
      Act c (.start [] wait) (fun _ => []) { c with sent := c.sent ++ [[]] }
  | put {c : Chan} {x : Send} (hsend : c.sending = some x) (hmore : x.advance.offset < x.data.length) :
      Act c .put (fun _ => [x.piece ()]) { c with sending := some x.advance }
  | last {c : Chan} {x : Send} (hsend : c.sending = some x) (hmore : x.data.length ≤ x.advance.offset) :
      Act c .put (fun _ => [x.piece ()]) { c with sending := none, sent := c.sent ++ [x.data] }
  | fail {c : Chan} {x : Send} (hsend : c.sending = some x) : Act c .fail (fun _ => []) { c with sending := none }
  | nomem {c : Chan} (hbuf : c.buf = none) : Act c .nomem (fun _ => []) c
  | wake {c : Chan} {a : Nat} {q : List Nat} (hidle : c.thread = none) (hqueue : c.rxQueue = a :: q) :
      Act c .wake (fun _ => []) { c with thread := some a, rxQueue := q }
  | callback {c : Chan} {a : Nat} (hthread : c.thread = some a) :
      Act c .callback (fun _ => [])
        { c with handed := c.handed ++ [(c.intents a).data], freed := a :: c.freed, thread := none }

/-- The head of the FIFO is received. -/
inductive Take : Chan → Unit → Frag → Event → Chan → Prop
  | rx {c : Chan} {p : Frag} {iters : Nat} : Take c () p (.rx iters) (rxData c p iters)

def behaviour : Mux.Behaviour Unit Chan (fun _ => Frag) Event := ⟨Act, Take⟩

/-- A channel that has the FIFO to itself. -/
abbrev Line := Mux.Alone Unit Chan fun _ => Frag

/-- All the channels of an edge, with the FIFO they share. -/
abbrev Edge := Mux.Shared Nat Unit Chan fun _ => Frag

/-- The intent has been left to the thread. -/
def Chan.Given (c : Chan) (a : Nat) : Prop := a ∈ c.rxQueue ∨ c.thread = some a ∨ a ∈ c.freed

instance (c : Chan) (a : Nat) : Decidable (c.Given a) := by
  unfold Chan.Given
  infer_instance

/-- What has been gathered of the message that is being received. -/
def Chan.part (c : Chan) : List U8 :=
  match c.buf with
  | none => []
  | some a => if c.Given a then [] else (c.intents a).data

/-- The messages left to the thread. -/
def Chan.waiting (c : Chan) : List (List U8) := (c.thread.toList ++ c.rxQueue).map fun a => (c.intents a).data

/-- What has been put of the message that is being sent. -/
def Chan.put (c : Chan) : List U8 := c.sending.elim [] fun x => x.data.take x.offset

def Line.gathered (s : Line) : List (List U8) := gather (fun _ => s.comp.part) (s.queues ())

def Line.rest (s : Line) : List U8 := Fragments.rest (fun _ => s.comp.part) (s.queues ()) ()

/-- The messages sent are, in order, those handed to the callback, those left to the thread and those whose
fragments are on the FIFO; of the message being sent what has been put is on its way; no freed
intent was used. -/
def InOrder (s : Line) : Prop :=
  s.comp.sent = s.comp.handed ++ s.comp.waiting ++ s.gathered ∧ s.rest = s.comp.put ∧ s.comp.fault = false

/-- The condition for a step: a message is not empty, no send fails after its first fragment, and no fragment
is received while `channel->buf` is an intent that was left to the thread. -/
def Proper (s : Line) : Event → Prop
  | .start data _ => data ≠ []
  | .fail => ∀ x, s.comp.sending = some x → x.offset = 0
  | .rx _ => ∀ a, s.comp.buf = some a → ¬ s.comp.Given a
  | _ => True

/-! ### The fragments on the FIFO -/

/-- The fragments continue a message of which `r` bytes are missing, and leave one of which `r'` are. -/
def Stream : Nat → List Frag → Nat → Prop
  | r, [], r' => r = r'
  | r, p :: ps, r' => p.data ≠ [] ∧ (r = 0 ∨ r = p.data.length + p.left) ∧ Stream p.left ps r'

theorem Stream.concat {r r' : Nat} {ps : List Frag} {p : Frag} (h : Stream r ps r') (hne : p.data ≠ [])
    (hfit : r' = 0 ∨ r' = p.data.length + p.left) : Stream r (ps ++ [p]) p.left := by
  induction ps generalizing r with
  | nil =>
    obtain rfl : r = r' := h
    exact ⟨hne, hfit, rfl⟩
  | cons f ps ih => exact ⟨h.1, h.2.1, ih h.2.2⟩

/-- What is missing of the message that is being received. -/
def Chan.missing (c : Chan) : Nat :=
  match c.buf with
  | none => 0
  | some a => if c.Given a then 0 else (c.intents a).size - (c.intents a).data.length

/-- What is not yet put of a message of which something is. -/
def Chan.unsent (c : Chan) : Nat := c.sending.elim 0 fun x => if x.offset = 0 then 0 else x.data.length - x.offset

/-- What the steps keep: the thread's intents are full and `channel->buf` is one of those left to it while
there are any, and the fragments on the FIFO fit what is missing. -/
structure Inv (s : Line) : Prop where
  sending : ∀ x, s.comp.sending = some x → x.offset < x.data.length
  fresh : ∀ a, s.comp.Given a ∨ s.comp.buf = some a → a < s.comp.next
  busy : s.comp.thread.toList ++ s.comp.rxQueue ≠ [] → ∃ a, s.comp.buf = some a ∧ s.comp.Given a
  full : ∀ a ∈ s.comp.thread.toList ++ s.comp.rxQueue, (s.comp.intents a).data.length = (s.comp.intents a).size
  filling : ∀ a, s.comp.buf = some a → ¬ s.comp.Given a → (s.comp.intents a).data.length < (s.comp.intents a).size
  stream : Stream s.comp.missing (s.queues ()) s.comp.unsent

variable {d : List U8}

theorem absorb_unit {p : Frag} : absorb (fun _ => d) p = fun _ => if p.left = 0 then [] else d ++ p.data := by
  funext k
  exact update_self p.key _ _

section
variable {c : Chan} {a b : Nat}

theorem Chan.part_filling (hbuf : c.buf = some a) (hgiven : ¬ c.Given a) : c.part = (c.intents a).data := by
  unfold part
  rw [hbuf]
  exact if_neg hgiven

theorem Chan.part_given (hbuf : c.buf = some a) (hgiven : c.Given a) : c.part = [] := by
  unfold part
  rw [hbuf]
  exact if_pos hgiven

theorem Chan.part_none (hbuf : c.buf = none) : c.part = [] := by
  unfold part
  rw [hbuf]

theorem Chan.missing_filling (hbuf : c.buf = some a) (hgiven : ¬ c.Given a) :
    c.missing = (c.intents a).size - (c.intents a).data.length := by
  unfold missing
  rw [hbuf]
  exact if_neg hgiven

theorem Chan.missing_given (hbuf : c.buf = some a) (hgiven : c.Given a) : c.missing = 0 := by
  unfold missing
  rw [hbuf]
  exact if_pos hgiven

theorem Chan.missing_none (hbuf : c.buf = none) : c.missing = 0 := by
  unfold missing
  rw [hbuf]

end

/-! ### Receiving a fragment -/

section
variable {c : Chan} {a iters : Nat} {p : Frag} {ps : List Frag}

/-- The next fragment of the message that an intent is being filled with, or the first one of a message
for which the intent was allocated. -/
structure Fits (c : Chan) (a : Nat) (p : Frag) (ps : List Frag) : Prop where
  buf : c.buf = some a
  open_ : ¬ c.Given a
  idle : c.thread.toList ++ c.rxQueue = []
  size : (c.intents a).size = (c.intents a).data.length + (p.data.length + p.left)
  sending : ∀ x, c.sending = some x → x.offset < x.data.length
  fresh : ∀ b, c.Given b ∨ c.buf = some b → b < c.next
  stream : Stream p.left ps c.unsent

/-- The intent with the fragment appended. -/
def appended (c : Chan) (a : Nat) (p : Frag) : Chan :=
  { c with intents := update c.intents a ⟨(c.intents a).size, (c.intents a).data ++ p.data⟩ }

theorem Fits.fill_eq (h : Fits c a p ps) :
    fill c a p iters = if p.left = 0 then rxDataHandler (appended c a p) a iters else appended c a p := by
  have hfreed : a ∉ c.freed := fun hf => h.open_ (.inr (.inr hf))
  have hspace : ¬ (c.intents a).size - (c.intents a).data.length < p.data.length := by
    rw [h.size]
    omega
  unfold fill
  rw [if_neg hfreed]
  rw [if_neg hspace]
  rfl

@[simp] theorem appended_intent :
    (appended c a p).intents a = ⟨(c.intents a).size, (c.intents a).data ++ p.data⟩ := update_self ..

section
variable (h : Fits c a p ps) (hrest : rest (fun _ => (c.intents a).data) (p :: ps) () = c.put)
  (hsent : c.sent = c.handed ++ gather (fun _ => (c.intents a).data) (p :: ps)) (hfault : c.fault = false)

include h hsent hrest hfault

/-- The message goes on. -/
theorem Fits.more (hleft : p.left ≠ 0) : InOrder ⟨appended c a p, fun _ => ps⟩ ∧ Inv ⟨appended c a p, fun _ => ps⟩ := by
  rw [gather_cons, absorb_unit, completed_more hleft] at hsent
  rw [rest_cons, absorb_unit] at hrest
  simp only [hleft, if_false, nil_append] at hsent hrest
  have hfit := h.size
  have hwaiting : (appended c a p).waiting = [] := congrArg (map _) h.idle
  have hpart : (appended c a p).part = (c.intents a).data ++ p.data :=
    (part_filling (c := appended c a p) h.buf h.open_).trans (congrArg Intent.data appended_intent)
  have hmissing : (appended c a p).missing = p.left := by
    rw [missing_filling (c := appended c a p) h.buf h.open_, appended_intent]
    simp only [length_append]
    omega
  refine ⟨⟨?_, ?_, hfault⟩, ⟨h.sending, h.fresh, fun hne => absurd h.idle hne, ?_, ?_, ?_⟩⟩
  · unfold Line.gathered
    rw [hwaiting, hpart, append_nil]
    exact hsent
  · unfold Line.rest
    rw [hpart]
    exact hrest
  · intro b hb
    exact absurd (h.idle ▸ hb : b ∈ []) not_mem_nil
  · intro b hb _
    obtain rfl : a = b := some.inj (h.buf.symm.trans hb)
    simp only [appended_intent, length_append]
    omega
  · rw [hmissing]
    exact h.stream

/-- The message is handed over at once. -/
theorem Fits.now (hleft : p.left = 0) :
    InOrder ⟨callNow (appended c a p) a, fun _ => ps⟩ ∧ Inv ⟨callNow (appended c a p) a, fun _ => ps⟩ := by
  rw [gather_cons, absorb_unit, completed_last hleft] at hsent
  rw [rest_cons, absorb_unit] at hrest
  simp only [hleft, if_true] at hsent hrest
  have hwaiting : (callNow (appended c a p) a).waiting = [] := congrArg (map _) h.idle
  have hhanded : (callNow (appended c a p) a).handed = c.handed ++ [(c.intents a).data ++ p.data] := by
    unfold callNow
    rw [appended_intent]
    rfl
  refine ⟨⟨?_, ?_, hfault⟩, ⟨h.sending, ?_, fun hne => absurd h.idle hne, ?_, ?_, ?_⟩⟩
  · unfold Line.gathered
    rw [hwaiting, hhanded, part_none rfl, append_nil, append_assoc]
    exact hsent
  · unfold Line.rest
    exact hrest
  · rintro b (hb | hb)
    · exact h.fresh b (.inl hb)
    · cases hb
  · intro b hb
    exact absurd (h.idle ▸ hb : b ∈ []) not_mem_nil
  · intro b hb
    cases hb
  · rw [missing_none rfl, ← hleft]
    exact h.stream

/-- The message is left to the thread. -/
theorem Fits.queued (hleft : p.left = 0) :
    InOrder ⟨queueIntent (appended c a p) a, fun _ => ps⟩ ∧ Inv ⟨queueIntent (appended c a p) a, fun _ => ps⟩ := by
  obtain ⟨hthread, hqueue⟩ := append_eq_nil_iff.mp h.idle
  rw [gather_cons, absorb_unit, completed_last hleft] at hsent
  rw [rest_cons, absorb_unit] at hrest
  simp only [hleft, if_true] at hsent hrest
  have hfit := h.size
  have hbuf : (queueIntent (appended c a p) a).buf = some a := h.buf
  have hgiven : (queueIntent (appended c a p) a).Given a := .inl (mem_append_right _ mem_cons_self)
  have hlist : (queueIntent (appended c a p) a).thread.toList ++ (queueIntent (appended c a p) a).rxQueue = [a] := by
    unfold queueIntent appended
    rw [hthread, hqueue]
    rfl
  have hintent : (queueIntent (appended c a p) a).intents a = ⟨(c.intents a).size, (c.intents a).data ++ p.data⟩ := appended_intent
  have hwaiting : (queueIntent (appended c a p) a).waiting = [(c.intents a).data ++ p.data] := by
    unfold waiting
    rw [hlist, map_singleton, hintent]
  refine ⟨⟨?_, ?_, hfault⟩, ⟨h.sending, ?_, fun _ => ⟨a, hbuf, hgiven⟩, ?_, ?_, ?_⟩⟩
  · unfold Line.gathered
    rw [hwaiting, part_given hbuf hgiven, append_assoc]
    exact hsent
  · unfold Line.rest
    rw [part_given hbuf hgiven]
    exact hrest
  · rintro b ((hb | hb) | hb)
    · rcases mem_append.mp hb with hb | hb
      · exact h.fresh b (.inl (.inl hb))
      · exact h.fresh b (.inr (mem_singleton.mp hb ▸ h.buf))
    · exact h.fresh b (.inl (.inr hb))
    · exact h.fresh b (.inr hb)
  · intro b hb
    obtain rfl : b = a := mem_singleton.mp (hlist ▸ hb)
    rw [hintent]
    simp only [length_append]
    omega
  · intro b hb hopen
    obtain rfl : a = b := some.inj (h.buf.symm.trans hb)
    exact absurd hgiven hopen
  · rw [missing_given hbuf hgiven, ← hleft]
    exact h.stream

theorem Fits.kept : InOrder ⟨fill c a p iters, fun _ => ps⟩ ∧ Inv ⟨fill c a p iters, fun _ => ps⟩ := by
  rw [h.fill_eq]
  by_cases hleft : p.left = 0
  · rw [if_pos hleft]
    unfold rxDataHandler
    split
    · exact h.now hrest hsent hfault hleft
    · exact h.queued hrest hsent hfault hleft
  · rw [if_neg hleft]
    exact h.more hrest hsent hfault hleft

end

end

section
variable {s t : Line} {a iters : Nat} {p : Frag} {ps : List Frag} {e : Event}

theorem Inv.idle (h : Inv s) (hopen : ∀ a, s.comp.buf = some a → ¬ s.comp.Given a) :
    s.comp.thread.toList ++ s.comp.rxQueue = [] := by
  by_contra hne
  obtain ⟨a, hbuf, hgiven⟩ := h.busy hne
  exact hopen a hbuf hgiven

/-- A fragment received while no intent left to the thread is in `channel->buf`. -/
theorem rx_kept (hI : Inv s) (hP : InOrder s) (hq : s.queues () = p :: ps) (hok : Proper s (.rx iters)) :
    InOrder ⟨rxData s.comp p iters, fun _ => ps⟩ ∧ Inv ⟨rxData s.comp p iters, fun _ => ps⟩ := by
  obtain ⟨hsent, hrest, hfault⟩ := hP
  have hstream := hI.stream
  have hidle := hI.idle hok
  unfold Line.gathered at hsent
  unfold Line.rest at hrest
  rw [hq] at hsent hrest hstream
  have hwaiting : s.comp.waiting = [] := congrArg (map _) hidle
  rw [hwaiting, append_nil] at hsent
  unfold rxData
  cases hbuf : s.comp.buf with
  | some a =>
    have hopen := hok a hbuf
    rw [part_filling hbuf hopen] at hsent hrest
    rw [missing_filling hbuf hopen] at hstream
    have hlt := hI.filling a hbuf hopen
    have hfit : Fits s.comp a p ps := by
      refine ⟨hbuf, hopen, hidle, ?_, hI.sending, hI.fresh, hstream.2.2⟩
      rcases hstream.2.1 with hzero | hleft <;> omega
    exact hfit.kept hrest hsent hfault
  | none =>
    rw [part_none hbuf] at hsent hrest
    have hnew : ((update s.comp.intents s.comp.next ⟨p.data.length + p.left, []⟩) s.comp.next) =
        ⟨p.data.length + p.left, []⟩ := update_self ..
    have hfit : Fits { s.comp with
        intents := update s.comp.intents s.comp.next ⟨p.data.length + p.left, []⟩
        next := s.comp.next + 1
        buf := some s.comp.next } s.comp.next p ps := by
      refine ⟨rfl, ?_, hidle, ?_, hI.sending, ?_, hstream.2.2⟩
      · intro hgiven
        exact lt_irrefl _ (hI.fresh _ (.inl hgiven))
      · dsimp only
        simp
      · rintro b (hb | hb)
        · exact Nat.lt_succ_of_lt (hI.fresh b (.inl hb))
        · cases hb
          exact Nat.lt_succ_self _
    refine hfit.kept ?_ ?_ hfault
    · dsimp only
      rw [hnew]
      exact hrest
    · dsimp only
      rw [hnew]
      exact hsent

/-- A fragment that does not reach its message is missed. -/
theorem lost_ne {d : List U8} (hne : p.data ≠ []) (hgather : gather (fun _ => d) (p :: ps) = gather (fun _ => d) ps)
    (hrest : rest (fun _ => d) (p :: ps) () = rest (fun _ => d) ps ()) : d ≠ [] := by
  rintro rfl
  rw [gather_cons, absorb_unit] at hgather
  rw [rest_cons, absorb_unit] at hrest
  by_cases hleft : p.left = 0
  · rw [completed_last hleft] at hgather
    simp only [hleft, if_true] at hgather
    have := congrArg length hgather
    rw [length_append, length_singleton] at this
    omega
  · rw [completed_more hleft] at hgather
    simp only [hleft, if_false, nil_append] at hgather hrest
    exact hne (congrFun (gathered_inj hgather (funext fun _ => hrest)) ())

/-- A fragment received while `channel->buf` is an intent left to the thread is lost, or goes to a freed
one. -/
theorem rx_lost (hI : Inv s) (hP : InOrder s) (hq : s.queues () = p :: ps) (hbuf : s.comp.buf = some a)
    (hgiven : s.comp.Given a) : ¬ InOrder ⟨rxData s.comp p iters, fun _ => ps⟩ := by
  unfold rxData fill
  rw [hbuf]
  dsimp only
  by_cases hfreed : a ∈ s.comp.freed
  · rw [if_pos hfreed]
    rintro ⟨-, -, hfault⟩
    cases hfault
  · have hmem : a ∈ s.comp.thread.toList ++ s.comp.rxQueue := by
      rcases hgiven with h | h | h
      · exact mem_append_right _ h
      · exact mem_append_left _ (mem_toList.mpr h)
      · exact absurd h hfreed
    have hfull := hI.full a hmem
    have hstream := hI.stream
    rw [hq] at hstream
    have hpos := length_pos_iff.mpr hstream.1
    rw [if_neg hfreed, if_pos (by omega)]
    rintro ⟨hsent, hrest, -⟩
    have hsent' := hP.1
    have hrest' := hP.2.1
    unfold Line.gathered at hsent hsent'
    unfold Line.rest at hrest hrest'
    rw [hq] at hsent' hrest'
    rw [part_given hbuf hgiven] at hsent hsent' hrest hrest'
    exact lost_ne hstream.1 (append_cancel_left (hsent'.symm.trans hsent)) (hrest'.trans hrest.symm) rfl

/-- What a step of the thread leaves as it is. -/
structure Rearranged (c c' : Chan) : Prop where
  sending : c'.sending = c.sending
  sent : c'.sent = c.sent
  intents : c'.intents = c.intents
  next : c'.next = c.next
  buf : c'.buf = c.buf
  fault : c'.fault = c.fault
  given : ∀ a, c'.Given a ↔ c.Given a
  fewer : ∀ a ∈ c'.thread.toList ++ c'.rxQueue, a ∈ c.thread.toList ++ c.rxQueue
  order : c'.handed ++ c'.waiting = c.handed ++ c.waiting

/-- The thread hands messages over in the order of the queue. -/
theorem Rearranged.kept {c' : Chan} (h : Rearranged s.comp c') (hI : Inv s) (hP : InOrder s) :
    InOrder ⟨c', s.queues⟩ ∧ Inv ⟨c', s.queues⟩ := by
  have hpart : c'.part = s.comp.part := by
    unfold part
    simp [h.buf, h.given, h.intents]
  have hmissing : c'.missing = s.comp.missing := by
    unfold missing
    simp [h.buf, h.given, h.intents]
  have hput : c'.put = s.comp.put := by
    unfold put
    rw [h.sending]
  have hunsent : c'.unsent = s.comp.unsent := by
    unfold unsent
    rw [h.sending]
  obtain ⟨hsent, hrest, hfault⟩ := hP
  refine ⟨⟨?_, ?_, h.fault.trans hfault⟩, ⟨?_, ?_, ?_, ?_, ?_, ?_⟩⟩
  · unfold Line.gathered
    rw [h.sent, h.order, hpart]
    exact hsent
  · unfold Line.rest
    rw [hpart, hput]
    exact hrest
  · intro x hx
    exact hI.sending x (h.sending ▸ hx)
  · intro a ha
    rw [h.given, h.buf] at ha
    rw [h.next]
    exact hI.fresh a ha
  · intro hne
    obtain ⟨a, ha⟩ := exists_mem_of_ne_nil _ hne
    obtain ⟨b, hb, hgiven⟩ := hI.busy (ne_nil_of_mem (h.fewer a ha))
    exact ⟨b, h.buf.trans hb, (h.given b).mpr hgiven⟩
  · intro a ha
    rw [h.intents]
    exact hI.full a (h.fewer a ha)
  · intro a hbuf hopen
    rw [h.buf] at hbuf
    rw [h.given] at hopen
    rw [h.intents]
    exact hI.filling a hbuf hopen
  · rw [hmissing, hunsent]
    exact hI.stream

theorem rearranged_wake {c : Chan} {q : List Nat} (hidle : c.thread = none) (hqueue : c.rxQueue = a :: q) :
    Rearranged c { c with thread := some a, rxQueue := q } := by
  have hlist : c.thread.toList ++ c.rxQueue = a :: q := by
    rw [hidle, hqueue]
    rfl
  refine ⟨rfl, rfl, rfl, rfl, rfl, rfl, fun b => ?_, fun b hb => hlist ▸ hb, ?_⟩
  · unfold Chan.Given
    rw [hidle, hqueue]
    simp only [mem_cons, some.injEq, reduceCtorEq, false_or]
    tauto
  · unfold waiting
    rw [hlist]
    rfl

theorem rearranged_callback {c : Chan} (hthread : c.thread = some a) :
    Rearranged c { c with handed := c.handed ++ [(c.intents a).data], freed := a :: c.freed, thread := none } := by
  refine ⟨rfl, rfl, rfl, rfl, rfl, rfl, fun b => ?_, fun b hb => mem_append_right _ hb, ?_⟩
  · unfold Chan.Given
    rw [hthread]
    simp only [mem_cons, some.injEq, reduceCtorEq, false_or]
    tauto
  · unfold waiting
    rw [hthread]
    simp

variable {x : Send} {q : Unit → List Frag} {y : Option Send} {z : List (List U8)}

/-- A send that puts a fragment: what is on its way of its message grows by it. -/
theorem gather_put (hrest : s.rest = x.data.take x.offset) :
    gather (fun _ => s.comp.part) (s.queues () ++ [x.piece ()]) =
      s.gathered ++ (if (x.piece ()).left = 0 then [x.data.take x.advance.offset] else []) ∧
    rest (fun _ => s.comp.part) (s.queues () ++ [x.piece ()]) () =
      if (x.piece ()).left = 0 then [] else x.data.take x.advance.offset := by
  have hacc : rest (fun _ => s.comp.part) (s.queues ()) = fun _ => x.data.take x.offset := funext fun _ => hrest
  rw [gather_append, rest_append, hacc, gather_cons, rest_cons, absorb_unit]
  refine ⟨?_, ?_⟩
  · unfold Line.gathered completed
    rw [Send.take_advance, gather_nil, append_nil]
  · rw [Send.take_advance]
    rfl

theorem Chan.unsent_fits {c : Chan} (hsend : c.sending = some x) :
    c.unsent = 0 ∨ c.unsent = (x.piece ()).data.length + (x.piece ()).left := by
  have hlen : (x.piece ()).data.length = x.chunkSize := Send.length_piece
  have hleft : (x.piece ()).left = x.data.length - x.advance.offset := Send.left_piece
  have hle := x.chunkSize_le
  unfold unsent
  rw [hsend]
  by_cases hzero : x.offset = 0
  · exact .inl (if_pos hzero)
  · refine .inr ((if_neg hzero).trans ?_)
    unfold Send.advance at hleft
    dsimp only at hleft
    omega

/-- A step of the sender leaves the receiver as it is. -/
theorem Inv.sender (h : Inv s) (hsending : ∀ x, y = some x → x.offset < x.data.length)
    (hstream : Stream s.comp.missing (q ()) (y.elim 0 fun x => if x.offset = 0 then 0 else x.data.length - x.offset)) :
    Inv ⟨{ s.comp with sending := y, sent := z }, q⟩ :=
  ⟨hsending, h.fresh, h.busy, h.full, h.filling, hstream⟩

/-- A step of the sender keeps the order exactly when what is sent and put is what is on its way. -/
theorem inOrder_sender (hP : InOrder s) : InOrder ⟨{ s.comp with sending := y, sent := z }, q⟩ ↔
      z = s.comp.handed ++ s.comp.waiting ++ gather (fun _ => s.comp.part) (q ()) ∧
      rest (fun _ => s.comp.part) (q ()) () = y.elim [] fun x => x.data.take x.offset := by
  constructor
  · rintro ⟨hsent, hrest, -⟩
    exact ⟨hsent, hrest⟩
  · rintro ⟨hsent, hrest⟩
    exact ⟨hsent, hrest, hP.2.2⟩

theorem act_step {c : Chan} {out : Unit → List Frag} (hact : Act s.comp e out c) (hI : Inv s) (hP : InOrder s) :
    (InOrder ⟨c, fun k => s.queues k ++ out k⟩ ↔ Proper s e) ∧
    (InOrder ⟨c, fun k => s.queues k ++ out k⟩ → Inv ⟨c, fun k => s.queues k ++ out k⟩) := by
  obtain ⟨hsent, hrest, hfault⟩ := id hP
  have hstream := hI.stream
  have hsilent : (fun k => s.queues k ++ []) = s.queues := funext fun _ => append_nil _
  cases hact with
  | @start data wait hidle hdata =>
    have hput : s.comp.put = [] := congrArg (Option.elim · [] _) hidle
    have hunsent : s.comp.unsent = 0 := congrArg (Option.elim · 0 _) hidle
    rw [hunsent] at hstream
    rw [hsilent]
    refine ⟨iff_of_true ((inOrder_sender hP).mpr ⟨hsent, hrest.trans hput⟩) hdata, fun _ => ?_⟩
    refine hI.sender ?_ hstream
    rintro x ⟨⟩
    exact length_pos_iff.mpr hdata
  | @empty wait hidle =>
    rw [hsilent]
    have hne : ¬ InOrder ⟨{ s.comp with sent := s.comp.sent ++ [[]] }, s.queues⟩ := by
      intro h
      have hlen := congrArg length (hsent.trans h.1.symm)
      simp at hlen
    exact ⟨iff_of_false hne fun h => h rfl, fun h => absurd h hne⟩
  | @put x hsend hmore =>
    have hput : s.rest = x.data.take x.offset := hrest.trans (congrArg (Option.elim · [] _) hsend)
    have hleft : (x.piece ()).left = x.data.length - x.advance.offset := Send.left_piece
    have hmore' : (x.piece ()).left ≠ 0 := by omega
    obtain ⟨hgather, hrest'⟩ := gather_put hput
    rw [if_neg hmore'] at hgather hrest'
    refine ⟨iff_of_true ((inOrder_sender hP).mpr ⟨?_, hrest'⟩) trivial, fun _ => hI.sender ?_ ?_⟩
    · rw [hgather, append_nil]
      exact hsent
    · rintro y ⟨⟩
      exact hmore
    · have hpos := Send.chunkSize_pos (hI.sending x hsend)
      have hcat := hstream.concat (Send.piece_ne_nil (hI.sending x hsend)) (unsent_fits hsend)
      have hne : x.advance.offset ≠ 0 := by
        unfold Send.advance
        dsimp only
        omega
      rw [hleft] at hcat
      rw [elim_some, if_neg hne]
      exact hcat
  | @last x hsend hmore =>
    have hput : s.rest = x.data.take x.offset := hrest.trans (congrArg (Option.elim · [] _) hsend)
    have hleft : (x.piece ()).left = 0 := by
      rw [Send.left_piece]
      omega
    obtain ⟨hgather, hrest'⟩ := gather_put hput
    rw [if_pos hleft] at hgather hrest'
    refine ⟨iff_of_true ((inOrder_sender hP).mpr ⟨?_, hrest'⟩) trivial, fun _ => hI.sender ?_ ?_⟩
    · rw [hgather, take_of_length_le hmore, ← append_assoc, ← hsent]
    · rintro y ⟨⟩
    · have hcat := hstream.concat (Send.piece_ne_nil (hI.sending x hsend)) (unsent_fits hsend)
      rw [hleft] at hcat
      exact hcat
  | @fail x hsend =>
    have hput : s.rest = x.data.take x.offset := hrest.trans (congrArg (Option.elim · [] _) hsend)
    have hlt := hI.sending x hsend
    rw [hsilent]
    have hiff : InOrder ⟨{ s.comp with sending := none }, s.queues⟩ ↔ x.offset = 0 := by
      refine (inOrder_sender hP).trans ?_
      constructor
      · rintro ⟨-, hnone⟩
        have hlen := congrArg length (hput.symm.trans hnone)
        rw [length_take, elim_none, length_nil] at hlen
        omega
      · intro hzero
        refine ⟨hsent, hput.trans ?_⟩
        rw [hzero]
        rfl
    refine ⟨hiff.trans ⟨?_, fun h => h x hsend⟩, fun h => hI.sender ?_ ?_⟩
    · rintro hzero y hy
      cases hsend.symm.trans hy
      exact hzero
    · rintro y ⟨⟩
    · have hunsent : s.comp.unsent = 0 := by
        unfold unsent
        rw [hsend]
        exact if_pos (hiff.mp h)
      rw [hunsent] at hstream
      exact hstream
  | nomem hbuf =>
    rw [hsilent]
    exact ⟨iff_of_true hP trivial, fun _ => hI⟩
  | @wake a q hidle hqueue =>
    rw [hsilent]
    obtain ⟨hin, hinv⟩ := (rearranged_wake hidle hqueue).kept hI hP
    exact ⟨iff_of_true hin trivial, fun _ => hinv⟩
  | @callback a hthread =>
    rw [hsilent]
    obtain ⟨hin, hinv⟩ := (rearranged_callback hthread).kept hI hP
    exact ⟨iff_of_true hin trivial, fun _ => hinv⟩

/-- A step from a line in order leaves it so exactly when it is proper. -/
theorem inOrder_step (hstep : Mux.AloneStep behaviour s e t) (hI : Inv s) (hP : InOrder s) :
    (InOrder t ↔ Proper s e) ∧ (InOrder t → Inv t) := by
  cases hstep with
  | act hact => exact act_step hact hI hP
  | @take _ p q c hpop htake =>
    cases htake with
    | @rx _ iters =>
      by_cases hok : Proper s (.rx iters)
      · obtain ⟨hin, hinv⟩ := rx_kept hI hP hpop.1 hok
        exact ⟨iff_of_true hin hok, fun _ => hinv⟩
      · unfold Proper at hok
        push Not at hok
        obtain ⟨a, hbuf, hgiven⟩ := hok
        have hlost : ¬ InOrder ⟨rxData s.comp p iters, q⟩ := rx_lost hI hP hpop.1 hbuf hgiven
        exact ⟨iff_of_false hlost fun h => h a hbuf hgiven, fun h => absurd h hlost⟩

end

/-! ### All the channels of an edge -/

/-- An edge with any channels, nothing sent. -/
def Edge.initial (cbIrq : Nat → Bool) : Edge := ⟨fun ch => .initial (cbIrq ch), fun _ => []⟩

section
variable {cbIrq : Nat → Bool} {run : List ((Nat × Event) × Edge)}

theorem inv_initial (ch : Nat) : Inv (Mux.proj ch (Edge.initial cbIrq)) := by
  refine ⟨?_, ?_, ?_, ?_, ?_, rfl⟩
  · rintro x ⟨⟩
  · rintro a ((ha | ha | ha) | ha) <;> cases ha
  · intro hne
    exact absurd rfl hne
  · intro a ha
    cases ha
  · rintro a ⟨⟩

/-- No send goes on, and nothing is on the FIFO or left to the thread. -/
def Drained (s : Line) : Prop := s.comp.sending = none ∧ s.comp.thread = none ∧ s.comp.rxQueue = [] ∧ s.queues () = []

theorem InOrder.handed_eq {s : Line} (h : InOrder s) (hdrained : Drained s) : s.comp.handed = s.comp.sent := by
  obtain ⟨-, hthread, hqueue, hfifo⟩ := hdrained
  have hwaiting : s.comp.waiting = [] := by
    unfold waiting
    rw [hthread, hqueue]
    rfl
  have hgathered : s.gathered = [] := congrArg (gather _) hfifo
  rw [h.1, hwaiting, hgathered, append_nil, append_nil]

/-- In every state of a run every channel's messages are in order exactly when all the steps are proper.
What has been handed over is then what was sent, once nothing is on its way. -/
theorem delivery_iff (hrun : Lts.Path (Mux.SharedStep behaviour) (Edge.initial cbIrq) run) :
    ((∀ u ∈ Edge.initial cbIrq :: run.map Prod.snd, ∀ ch, InOrder (Mux.proj ch u)) ↔
      Steps (Mux.Each Proper) (Edge.initial cbIrq) run) ∧ (Steps (Mux.Each Proper) (Edge.initial cbIrq) run →
      ∀ u ∈ Edge.initial cbIrq :: run.map Prod.snd, ∀ ch, Drained (Mux.proj ch u) → (u.comp ch).handed = (u.comp ch).sent) := by
  have hiff : (∀ u ∈ Edge.initial cbIrq :: run.map Prod.snd, ∀ ch, InOrder (Mux.proj ch u)) ↔
      Steps (Mux.Each Proper) (Edge.initial cbIrq) run :=
    Mux.always_iff_steps (fun _ _ _ hstep hI hP hPt => (inOrder_step hstep hI hP).2 hPt)
      (fun _ _ _ hstep hI hP => (inOrder_step hstep hI hP).1) hrun inv_initial fun _ => ⟨rfl, rfl, rfl⟩
  refine ⟨hiff, fun hok u hu ch hdrained => ?_⟩
  exact (hiff.mpr hok u hu ch).handed_eq hdrained

end

/-! One channel sends messages of one fragment. -/

/-- The edge with channel 0 and the FIFO after a step. -/
def Edge.after (s : Edge) (c : Chan) (out : List Frag) : Edge :=
  ⟨update s.comp 0 c, fun k => s.queues k ++ out.map (Prod.mk 0)⟩

def started (d : List U8) (s : Edge) : Edge := s.after { s.comp 0 with sending := some ⟨0, d, 0, true⟩ } []

def putAll (d : List U8) (s : Edge) : Edge :=
  s.after { s.comp 0 with sending := none, sent := (s.comp 0).sent ++ [d] } [(⟨0, d, 0, true⟩ : Send).piece ()]

def received (d : List U8) (s : Edge) : Edge := ⟨update s.comp 0 (rxData (s.comp 0) ⟨(), d, 0⟩ 0), fun _ => []⟩

def woken (a : Nat) (s : Edge) : Edge := s.after { s.comp 0 with thread := some a, rxQueue := [] } []

def calledBack (a : Nat) (s : Edge) : Edge :=
  s.after { s.comp 0 with
    handed := (s.comp 0).handed ++ [((s.comp 0).intents a).data], freed := a :: (s.comp 0).freed, thread := none } []

theorem received_step {s : Edge} (h : s.queues () = [(0, ⟨(), d, 0⟩)]) :
    Mux.SharedStep behaviour s (0, .rx 0) (received d s) := by
  have htake : behaviour.take (s.comp 0) () ⟨(), d, 0⟩ (.rx 0) (rxData (s.comp 0) ⟨(), d, 0⟩ 0) := Take.rx
  exact .take ⟨h, fun k hk => absurd rfl hk⟩ htake

/-- The callback is called at once. -/
def directRun : List ((Nat × Event) × Edge) :=
  let e₀ := Edge.initial fun _ => true
  let e₁ := started [1] e₀
  let e₂ := putAll [1] e₁
  [((0, .start [1] true), e₁), ((0, .put), e₂), ((0, .rx 0), received [1] e₂)]

theorem path_directRun : Lts.Path (Mux.SharedStep behaviour) (Edge.initial fun _ => true) directRun :=
  ⟨.act (.start rfl (by decide)), .act (.last rfl (by decide)), received_step rfl, trivial⟩

theorem delivery_direct : ((received [1] (putAll [1] (started [1] (Edge.initial fun _ => true)))).comp 0).handed = [[1]] :=
  (delivery_iff path_directRun).2 ⟨by simp [Mux.Each, Proper], trivial, nofun, trivial⟩ _
    (.tail _ (.tail _ (.tail _ mem_cons_self))) 0 ⟨rfl, rfl, rfl, rfl⟩

/-- The callback is left to the thread, and a second message comes. -/
def queuedStates : List Edge :=
  let e₀ := Edge.initial fun _ => false
  let e₁ := started [1] e₀
  let e₂ := putAll [1] e₁
  let e₃ := received [1] e₂
  let e₄ := started [2] e₃
  let e₅ := putAll [2] e₄
  let e₆ := received [2] e₅
  let e₇ := woken 0 e₆
  [e₁, e₂, e₃, e₄, e₅, e₆, e₇, calledBack 0 e₇]

def queuedRun : List ((Nat × Event) × Edge) :=
  ([(0, .start [1] true), (0, .put), (0, .rx 0), (0, .start [2] true), (0, .put), (0, .rx 0), (0, .wake), (0, .callback)] :
    List (Nat × Event)).zip queuedStates

theorem path_queuedRun : Lts.Path (Mux.SharedStep behaviour) (Edge.initial fun _ => false) queuedRun :=
  ⟨.act (.start rfl (by decide)), .act (.last rfl (by decide)), received_step rfl,
    .act (.start rfl (by decide)), .act (.last rfl (by decide)), received_step rfl,
    .act (.wake rfl rfl), .act (.callback rfl), trivial⟩

/-- The second message is dropped. -/
theorem queued_drops_next : Lts.Path (Mux.SharedStep behaviour) (Edge.initial fun _ => false) queuedRun ∧
    Drained (Mux.proj 0 (final (Edge.initial fun _ => false) queuedRun)) ∧
    ((final (Edge.initial fun _ => false) queuedRun).comp 0).sent = [[1], [2]] ∧
    ((final (Edge.initial fun _ => false) queuedRun).comp 0).handed = [[1]] :=
  ⟨path_queuedRun, ⟨rfl, rfl, rfl, rfl⟩, rfl, rfl⟩

end Sm8850.Glink.Intentless
