import Sm8850.IpcLog.Ring
import Sm8850.IpcLog.Fields

/-! The log as a bounded queue of messages: what is written, what is dropped, and what the
non-destructive reader is given. -/
namespace Sm8850.IpcLog
open Context

open PagedRing Memory List Nat UInt8 Lts

variable {c c' : Context} {n k : Nat} {ms : List (List UInt8)} {m : List UInt8}

/-- A completed message: its second byte is the length of what follows the header. -/
structure IsMsg (m : List UInt8) : Prop where
  two_le : 2 ≤ m.length
  le_max : m.length ≤ maxMsgSize
  size : (m.getD 1 0).toNat = m.length - 2

/-- The position of message `k` in the stream of all messages. -/
def pos (ms : List (List UInt8)) (k : Nat) : Nat := (ms.take k).flatten.length

/-- The queue the log stands for: all messages ever written, how many of the oldest were
dropped, and which message the non-destructive reader gets next. -/
structure Queue where
  written : List (List UInt8)
  dropped : Nat
  next : Nat

/-- The context holds the queue. -/
structure Refines (n : Nat) (c : Context) (q : Queue) : Prop where
  msgs : ∀ m ∈ q.written, IsMsg m
  dropped_le : q.dropped ≤ q.next
  next_le : q.next ≤ q.written.length
  layout : Layout n (pos q.written q.dropped) (pos q.written q.next) q.written.flatten.length c
  bytes : ∀ a, pos q.written q.dropped ≤ a → a < q.written.flatten.length →
    some (c.byte a) = q.written.flatten[a]?
  avail : c.writeAvail + (q.written.flatten.length - pos q.written q.dropped) =
    n * logPageDataSize % 2 ^ 32

section

theorem pos_zero : pos ms 0 = 0 := rfl

theorem pos_succ (hk : k < ms.length) : pos ms (k + 1) = pos ms k + ms[k].length := by
  rw [pos, take_succ_eq_append_getElem hk, flatten_append, length_append]
  simp [pos]

theorem pos_length : pos ms ms.length = ms.flatten.length := by simp [pos]

theorem pos_le_succ : pos ms k ≤ pos ms (k + 1) := by
  by_cases hk : k < ms.length
  · rw [pos_succ hk]
    exact le_add_right _ _
  · rw [pos, pos, take_of_length_le (by omega), take_of_length_le (by omega)]

theorem pos_mono {j : Nat} (hjk : j ≤ k) : pos ms j ≤ pos ms k := by
  induction hjk with
  | refl => exact le_rfl
  | step _ ih => exact le_trans ih pos_le_succ

theorem pos_le (ms : List (List UInt8)) (k : Nat) : pos ms k ≤ ms.flatten.length := by
  by_cases hk : k ≤ ms.length
  · rw [← pos_length]
    exact pos_mono hk
  · rw [pos, take_of_length_le (by omega)]

/-- Messages are not empty, so their positions tell them apart. -/
theorem pos_lt {j : Nat} (hms : ∀ m ∈ ms, IsMsg m) (hjk : j < k) (hk : k ≤ ms.length) : pos ms j + 2 ≤ pos ms k := by
  have hlt : j < ms.length := by omega
  have hmsg := hms ms[j] (getElem_mem hlt)
  have hstep := pos_succ hlt
  have hrest : pos ms (j + 1) ≤ pos ms k := pos_mono hjk
  have htwo := hmsg.two_le
  omega

theorem drop_pos (ms : List (List UInt8)) (k : Nat) : ms.flatten.drop (pos ms k) = (ms.drop k).flatten := by
  have hsplit : ms.flatten = (ms.take k).flatten ++ (ms.drop k).flatten := by
    rw [← flatten_append, take_append_drop]
  rw [hsplit]
  exact drop_left

theorem take_drop_pos (hk : k < ms.length) : (ms.flatten.drop (pos ms k)).take ms[k].length = ms[k] := by
  rw [drop_pos, drop_eq_getElem_cons hk, flatten_cons]
  exact take_left

theorem pos_append (hk : k ≤ ms.length) : pos (ms ++ [m]) k = pos ms k := by
  rw [pos, pos, take_append_of_le_length hk]

end

section
variable {q : Queue}

section
variable (h : Refines n c q)
include h

theorem Refines.stream {a len : Nat} (ha : pos q.written q.dropped ≤ a)
    (hlen : a + len ≤ q.written.flatten.length) : c.stream a len = (q.written.flatten.drop a).take len := by
  refine ext_getElem? (fun i => ?_)
  by_cases hi : i < len
  · rw [getElem?_take_of_lt hi, getElem?_drop, ← h.bytes (a + i) (by omega) (by omega)]
    simp [Context.stream, hi]
  · rw [getElem?_eq_none (by simp [Context.stream]; omega), getElem?_eq_none (by simp; omega)]

theorem Refines.stream_msg (hd : q.dropped ≤ k) (hk : k < q.written.length) :
    c.stream (pos q.written k) q.written[k].length = q.written[k] := by
  have hend : pos q.written k + q.written[k].length ≤ q.written.flatten.length := by
    rw [← pos_succ hk]
    exact pos_le _ _
  rw [h.stream (pos_mono hd) hend, take_drop_pos hk]

/-- A cursor at a message stands where the write cursor stands only at the end. -/
theorem Refines.at_end_iff (hd : q.dropped ≤ k) (hk : k ≤ q.written.length) :
    (page n logPageDataSize (pos q.written k) = page n logPageDataSize q.written.flatten.length ∧
      offset logPageDataSize (pos q.written k) =
        offset logPageDataSize q.written.flatten.length) ↔ k = q.written.length := by
  have hlap := h.layout.lap
  have hfirst : pos q.written q.dropped ≤ pos q.written k := pos_mono hd
  have hlast := pos_le q.written k
  constructor
  · rintro ⟨hp, ho⟩
    have heq := cursor_inj hp ho (by omega) (by omega)
    rcases lt_or_ge k q.written.length with hlt | hge
    · have hpos := pos_lt h.msgs hlt (le_rfl)
      rw [pos_length] at hpos
      omega
    · omega
  · intro heq
    rw [heq, pos_length]
    exact ⟨rfl, rfl⟩

theorem isReadEmpty_iff : isReadEmpty c ↔ q.dropped = q.written.length := by
  have hl := h.layout
  have hptr : c.readPage = page n logPageDataSize (pos q.written q.dropped) := hl.read.ptr
  have hoff : (c.pages c.readPage).readOffset = offset logPageDataSize (pos q.written q.dropped) :=
    hl.read.offs_ptr
  rw [isReadEmpty, Bool.and_eq_true, decide_eq_true_iff, decide_eq_true_iff, hl.writeOffset, hl.writePage, hoff, hptr]
  exact h.at_end_iff (le_rfl) (le_trans h.dropped_le h.next_le)

theorem isNdReadEmpty_iff : isNdReadEmpty c ↔ q.next = q.written.length := by
  have hl := h.layout
  have hptr : c.ndReadPage = page n logPageDataSize (pos q.written q.next) := hl.ndRead.ptr
  have hoff : (c.pages c.ndReadPage).ndReadOffset = offset logPageDataSize (pos q.written q.next) :=
    hl.ndRead.offs_ptr
  rw [isNdReadEmpty, Bool.and_eq_true, decide_eq_true_iff, decide_eq_true_iff, hl.writeOffset, hl.writePage, hoff, hptr]
  exact h.at_end_iff h.dropped_le h.next_le

/-- A message is stored as its header and its body. -/
theorem Refines.stream_split (hd : q.dropped ≤ k) (hk : k < q.written.length) :
    c.stream (pos q.written k) 2 ++ c.stream (pos q.written k + 2) (q.written[k].length - 2) = q.written[k] ∧
    ((c.stream (pos q.written k) 2).getD 1 0).toNat = q.written[k].length - 2 := by
  have hmsg := h.msgs q.written[k] (getElem_mem hk)
  obtain ⟨len, hlen⟩ : ∃ len, q.written[k].length = 2 + len :=
    ⟨q.written[k].length - 2, by have := hmsg.two_le; omega⟩
  have hsplit : c.stream (pos q.written k) 2 ++ c.stream (pos q.written k + 2) len =
      c.stream (pos q.written k) (2 + len) := by
    simp only [Context.stream, range_add, map_append, map_map, add_assoc]
    rfl
  have hwhole := h.stream_msg hd hk
  rw [hlen] at hwhole ⊢
  rw [Nat.add_sub_cancel_left]
  refine ⟨hsplit.trans hwhole, ?_⟩
  have hsize := hmsg.size
  rw [hlen, Nat.add_sub_cancel_left] at hsize
  rw [← hsize, ← hwhole, ← hsplit, getD_eq_getElem?_getD, getD_eq_getElem?_getD,
    getElem?_append_left (by simp [Context.stream])]

end

theorem isMsg_le_page (hm : IsMsg m) : m.length ≤ logPageDataSize :=
  le_trans hm.le_max (by decide)

/-- What a read does to the queue. -/
def Queue.read (q : Queue) : Queue := { q with next := min (q.next + 1) q.written.length }

theorem refines_msgRead (h : Refines n c q) : (msgRead c).2 = q.written[q.next]? ∧ Refines n (msgRead c).1 q.read := by
  unfold msgRead
  by_cases hend : q.next = q.written.length
  · rw [if_pos ((isNdReadEmpty_iff h).mpr hend)]
    have hsame : q.read = q := by
      have hmin : min (q.next + 1) q.written.length = q.next := by omega
      simp [Queue.read, hmin]
    exact ⟨(getElem?_eq_none (le_of_eq hend.symm)).symm, hsame.symm ▸ h⟩
  · have hlt : q.next < q.written.length := lt_of_le_of_ne h.next_le hend
    rw [if_neg (fun he => hend ((isNdReadEmpty_iff h).mp he))]
    have hmsg := h.msgs q.written[q.next] (getElem_mem hlt)
    have htwo := hmsg.two_le
    have hpage := isMsg_le_page hmsg
    have hsucc := pos_succ hlt
    have hend := pos_le q.written (q.next + 1)
    obtain ⟨hsplit, hsize⟩ := h.stream_split h.dropped_le hlt
    obtain ⟨hl₁, hs₁, ha₁, hd₁⟩ := layout_ipcLogRead h.layout
      (show 2 ≤ logPageDataSize by decide) (by omega)
    generalize ipcLogRead c 2 = r₁ at hl₁ hs₁ ha₁ hd₁
    obtain ⟨c₁, hdr⟩ := r₁
    dsimp only at hl₁ hs₁ ha₁ hd₁ ⊢
    rw [hd₁, hsize]
    obtain ⟨hl₂, hs₂, ha₂, hd₂⟩ := layout_ipcLogRead hl₁
      (show q.written[q.next].length - 2 ≤ logPageDataSize by omega) (by omega)
    generalize ipcLogRead c₁ (q.written[q.next].length - 2) = r₂ at hl₂ hs₂ ha₂ hd₂
    obtain ⟨c₂, body⟩ := r₂
    dsimp only at hl₂ hs₂ ha₂ hd₂ ⊢
    have hbody : body = c.stream (pos q.written q.next + 2) (q.written[q.next].length - 2) := by
      rw [hd₂]
      simp [Context.stream, hs₁.byte]
    have hmin : min (q.next + 1) q.written.length = q.next + 1 := by omega
    refine ⟨?_, ?_⟩
    · rw [hbody, hsplit, getElem?_eq_getElem hlt]
    · refine ⟨h.msgs, ?_, ?_, ?_, ?_, ?_⟩
      · simp only [Queue.read, hmin]
        exact le_succ_of_le h.dropped_le
      · simp only [Queue.read, hmin]
        omega
      · simp only [Queue.read, hmin]
        have hpos : pos q.written q.next + 2 + (q.written[q.next].length - 2) = pos q.written (q.next + 1) := by omega
        rw [← hpos]
        exact hl₂
      · intro a h₁ h₂
        rw [(hs₁.trans hs₂).byte]
        exact h.bytes a h₁ h₂
      · rw [ha₂, ha₁]
        exact h.avail

/-- What a drop does to the queue. -/
def Queue.drop (q : Queue) : Queue :=
  { q with dropped := q.dropped + 1, next := max q.next (q.dropped + 1) }

section
variable (h : Refines n c q)
include h

theorem refines_msgDrop (hlt : q.dropped < q.written.length) : Refines n (msgDrop c) q.drop := by
  unfold msgDrop
  rw [if_neg (fun he => Nat.ne_of_lt hlt ((isReadEmpty_iff h).mp he))]
  have hmsg := h.msgs q.written[q.dropped] (getElem_mem hlt)
  have htwo := hmsg.two_le
  have hpage := isMsg_le_page hmsg
  have hsucc := pos_succ hlt
  have hend := pos_le q.written (q.dropped + 1)
  obtain ⟨_, hsize⟩ := h.stream_split (le_rfl) hlt
  have hnd : pos q.written q.next = pos q.written q.dropped ∧ q.next = q.dropped ∨
      pos q.written (q.dropped + 1) ≤ pos q.written q.next ∧ q.dropped < q.next := by
    rcases eq_or_lt_of_le h.dropped_le with heq | hgt
    · exact .inl ⟨by rw [heq], heq.symm⟩
    · exact .inr ⟨pos_mono hgt, hgt⟩
  obtain ⟨hl₁, hs₁, ha₁, hd₁⟩ := layout_ipcLogDrop h.layout
    (show 2 ≤ logPageDataSize by decide) (by omega) (by omega)
  generalize ipcLogDrop c 2 = r₁ at hl₁ hs₁ ha₁ hd₁
  dsimp only at hl₁ hs₁ ha₁ hd₁ ⊢
  rw [hd₁, hsize]
  obtain ⟨hl₂, hs₂, ha₂, _⟩ := layout_ipcLogDrop hl₁
    (show q.written[q.dropped].length - 2 ≤ logPageDataSize by omega) (by omega)
    (by split <;> omega)
  have hpos : pos q.written q.dropped + 2 + (q.written[q.dropped].length - 2) =
      pos q.written (q.dropped + 1) := by omega
  refine ⟨h.msgs, ?_, ?_, ?_, ?_, ?_⟩
  · exact le_max_right _ _
  · exact Nat.max_le.mpr ⟨h.next_le, hlt⟩
  · rw [hpos] at hl₂
    have hnext : (if (if pos q.written q.next = pos q.written q.dropped then
          pos q.written q.dropped + 2 else pos q.written q.next) = pos q.written q.dropped + 2 then
        pos q.written (q.dropped + 1)
      else if pos q.written q.next = pos q.written q.dropped then pos q.written q.dropped + 2
        else pos q.written q.next) = pos q.written (max q.next (q.dropped + 1)) := by
      rcases hnd with ⟨heq, hnext⟩ | ⟨hge, hgt⟩
      · rw [max_eq_right (by omega), if_pos heq, if_pos rfl]
      · have hne : ¬ pos q.written q.next = pos q.written q.dropped := by omega
        rw [max_eq_left (by omega), if_neg hne]
        split <;> omega
    rw [hnext] at hl₂
    exact hl₂
  · intro a h₁ h₂
    rw [(hs₁.trans hs₂).byte]
    exact h.bytes a (le_trans pos_le_succ h₁) h₂
  · have hav := h.avail
    simp only [Queue.drop]
    omega

/-- The loop before a write drops whole messages, oldest first, until there is room. -/
theorem refines_dropUntil {len fuel : Nat} (hrun : dropUntil len fuel c = some c') :
    ∃ d, q.dropped ≤ d ∧ d ≤ q.written.length ∧ len < c'.writeAvail ∧
      Refines n c' { q with dropped := d, next := max q.next d } ∧ ∀ j, q.dropped ≤ j → j < d →
        n * logPageDataSize % 2 ^ 32 ≤ len + (q.written.flatten.length - pos q.written j) := by
  induction fuel generalizing c q with
  | zero => cases hrun
  | succ fuel ih =>
    rw [dropUntil] at hrun
    split at hrun
    · rename_i hfull
      by_cases hlt : q.dropped < q.written.length
      · obtain ⟨d, hd, hle, havail, hr, hleast⟩ := ih (refines_msgDrop h hlt) hrun
        refine ⟨d, le_trans (le_succ _) hd, hle, havail, ?_, fun j hj hjd => ?_⟩
        · have hmax : max (max q.next (q.dropped + 1)) d = max q.next d := by
            have hd' : q.dropped + 1 ≤ d := hd
            omega
          simpa only [Queue.drop, hmax] using hr
        · rcases eq_or_lt_of_le hj with rfl | hlater
          · have hav := h.avail
            omega
          · exact hleast j hlater hjd
      · have hstay : msgDrop c = c := by
          have hend : q.dropped = q.written.length :=
            le_antisymm (le_trans h.dropped_le h.next_le) (Nat.le_of_not_lt hlt)
          rw [msgDrop, if_pos ((isReadEmpty_iff h).mpr hend)]
        rw [hstay] at hrun
        exact ih h hrun
    · rename_i hroom
      obtain rfl := Option.some.inj hrun
      refine ⟨q.dropped, le_rfl, le_trans h.dropped_le h.next_le, by omega, ?_, fun j _ _ => by omega⟩
      rw [max_eq_left h.dropped_le]
      exact h

/-- If an empty log has room for the message, the loop ends. -/
theorem dropUntil_ends {len : Nat}
    (hroom : len < n * logPageDataSize % 2 ^ 32) : ∃ fuel c', dropUntil len fuel c = some c' := by
  have hall : ∀ k c q, Refines n c q → q.written.length - q.dropped = k →
      ∃ fuel c', dropUntil len fuel c = some c' := by
    intro k
    induction k with
    | zero =>
      intro c q h hk
      have hle := le_trans h.dropped_le h.next_le
      have hend : q.dropped = q.written.length := by omega
      have hav := h.avail
      rw [hend, pos_length] at hav
      refine ⟨1, c, ?_⟩
      rw [dropUntil, if_neg (by omega)]
    | succ k ih =>
      intro c q h hk
      have hlt : q.dropped < q.written.length := by omega
      by_cases hfull : c.writeAvail ≤ len
      · have hrest : q.drop.written.length - q.drop.dropped = k := by
          simp only [Queue.drop]
          omega
        obtain ⟨fuel, c', hc'⟩ := ih (msgDrop c) q.drop (refines_msgDrop h hlt) hrest
        refine ⟨fuel + 1, c', ?_⟩
        rw [dropUntil, if_pos hfull, hc']
      · exact ⟨1, c, by rw [dropUntil, if_neg hfull]⟩
  exact hall _ c q h rfl

/-- What a write does to the queue, apart from what it drops. -/
theorem refines_commit (hm : IsMsg m) (hroom : m.length < c.writeAvail) :
    Refines n (commit c m) { q with written := q.written ++ [m] } := by
  have hlap : q.written.flatten.length + m.length <
      pos q.written q.dropped + n * logPageDataSize := by
    have hav := h.avail
    omega
  obtain ⟨hl, ha, hold, hnew⟩ := layout_commit h.layout (isMsg_le_page hm) hlap
  have hflat : (q.written ++ [m]).flatten = q.written.flatten ++ m := by simp
  have hlen : (q.written ++ [m]).flatten.length = q.written.flatten.length + m.length := by
    rw [hflat, length_append]
  have hd : pos (q.written ++ [m]) q.dropped = pos q.written q.dropped :=
    pos_append (le_trans h.dropped_le h.next_le)
  have hn : pos (q.written ++ [m]) q.next = pos q.written q.next := pos_append h.next_le
  refine ⟨?_, h.dropped_le, ?_, ?_, ?_, ?_⟩
  · intro m' hm'
    rcases mem_append.mp hm' with hm' | hm'
    · exact h.msgs m' hm'
    · exact mem_singleton.mp hm' ▸ hm
  · simp only [length_append]
    exact le_trans h.next_le (le_add_right _ _)
  · dsimp only
    rw [hd, hn, hlen]
    exact hl
  · dsimp only
    rw [hd, hlen, hflat]
    intro a h₁ h₂
    by_cases ha : a < q.written.flatten.length
    · rw [hold a h₁ ha, getElem?_append_left ha]
      exact h.bytes a h₁ ha
    · have hi : a - q.written.flatten.length < m.length := by omega
      rw [getElem?_append_right (by omega)]
      have hsum : q.written.flatten.length + (a - q.written.flatten.length) = a := by omega
      rw [← congrArg (fun l => l[a - q.written.flatten.length]?) hnew]
      simp only [Context.stream, getElem?_map, getElem?_range hi, Option.map_some, hsum]
  · dsimp only
    have hav := h.avail
    have hpos := pos_le q.written q.dropped
    omega

end

end

/-- Every completed message is one the log can take apart again. -/
theorem isMsg_encodeMsg (e : EncodeContext) (type : UInt32) (writes : List TsvWrite) :
    IsMsg (encodeMsg e type writes).bytes := by
  obtain ⟨hle, hmax, -⟩ := apply_offset writes (msgEncodeStart e type) (show 2 ≤ 255 by decide)
  have htwo : 2 ≤ _ := le_of_add_right_le hle
  unfold encodeMsg
  generalize writes.foldl TsvWrite.apply (msgEncodeStart e type) = u at htwo hmax
  have hlen : (msgEncodeEnd u).bytes.length = u.offset := length_bytes _
  refine ⟨hlen ▸ htwo, hlen ▸ hmax, ?_⟩
  have hsize : (msgEncodeEnd u).bytes.getD 1 0 = ofNat (u.offset - 2) := by
    have hone : 1 < u.offset := htwo
    simp [EncodeContext.bytes, peek, msgEncodeEnd, poke, hone]
  have hmax' : u.offset ≤ 255 := hmax
  rw [hsize, hlen, toNat_ofNat']
  exact mod_eq_of_lt (by omega)

/-- The messages of a run, in the order in which they were written. -/
def writes (run : List (Action × Context)) : List (List UInt8) :=
  run.filterMap (fun x => match x.1 with
    | .write e type ws => some (encodeMsg e type ws).bytes
    | .read _ => none)

/-- The messages that the reads of a run returned. -/
def reads (run : List (Action × Context)) : List (List UInt8) :=
  run.filterMap (fun x => match x.1 with
    | .write _ _ _ => none
    | .read out => out)

/-- The reads of a run return the messages `is` of `ms`, in order and each once; every
message from `a` to `b` that they do not return is below `d`. -/
structure Delivered (ms : List (List UInt8)) (out : List (List UInt8)) (is : List Nat)
    (a b d : Nat) : Prop where
  exact : out.map some = is.map (fun i => ms[i]?)
  ordered : is.Pairwise (· < ·)
  within : ∀ i ∈ is, a ≤ i ∧ i < b
  missed : ∀ i, a ≤ i → i < b → i ∉ is → i < d

theorem refines_run {run : List (Action × Context)} {q : Queue} (h : Refines n c q) (hrun : Lts.Path Step c run) :
    ∃ d next is, Refines n (final c run) ⟨q.written ++ writes run, d, next⟩ ∧ q.dropped ≤ d ∧ q.next ≤ next ∧
      Delivered (q.written ++ writes run) (reads run) is q.next next d := by
  induction run generalizing c q with
  | nil =>
    refine ⟨q.dropped, q.next, [], ?_, le_rfl, le_rfl, ?_⟩
    · simpa [writes] using h
    · exact ⟨rfl, .nil, by simp, fun i h₁ h₂ => absurd h₁ (by omega)⟩
  | cons x run ih =>
    obtain ⟨act, c₁⟩ := x
    obtain ⟨hstep, hrest⟩ := hrun
    cases act with
    | write e type ws =>
      obtain ⟨fuel, hw⟩ := hstep
      obtain ⟨u, hu, rfl⟩ := Option.map_eq_some_iff.mp hw
      obtain ⟨d, hd, hdle, hroom, hr, -⟩ := refines_dropUntil h hu
      have hmsg := isMsg_encodeMsg e type ws
      rw [← length_bytes] at hroom
      obtain ⟨d', next, is, hfin, hd', hnext, hdel⟩ := ih (refines_commit hr hmsg hroom) hrest
      have happ : q.written ++ writes ((.write e type ws, commit u (encodeMsg e type ws).bytes) :: run) =
          q.written ++ [(encodeMsg e type ws).bytes] ++ writes run := by
        simp [writes]
      dsimp only at hfin hd' hnext hdel
      rw [happ]
      refine ⟨d', next, is, hfin, le_trans hd hd', by omega, hdel.exact, hdel.ordered, ?_, ?_⟩
      · intro i hi
        have := hdel.within i hi
        omega
      · intro i h₁ h₂ hi
        by_cases hlow : i < max q.next d
        · omega
        · exact hdel.missed i (by omega) h₂ hi
    | read out =>
      obtain ⟨hout, hr⟩ := refines_msgRead h
      rw [hstep] at hout hr
      dsimp only at hout hr
      have hwr : writes ((.read out, c₁) :: run) = writes run := by simp [writes]
      obtain ⟨d, next, is, hfin, hd, hnext, hdel⟩ := ih hr hrest
      simp only [Queue.read] at hfin hd hnext hdel
      rw [hwr]
      cases hm : q.written[q.next]? with
      | none =>
        have hge : q.written.length ≤ q.next := getElem?_eq_none_iff.mp hm
        have hmin : min (q.next + 1) q.written.length = q.next := by
          have := h.next_le
          omega
        rw [hmin] at hnext hdel
        have hrd : reads ((.read out, c₁) :: run) = reads run := by simp [reads, hout, hm]
        rw [hrd]
        exact ⟨d, next, is, hfin, hd, hnext, hdel⟩
      | some m =>
        obtain ⟨hlt, hget⟩ := List.getElem?_eq_some_iff.mp hm
        have hmin : min (q.next + 1) q.written.length = q.next + 1 := by omega
        rw [hmin] at hnext hdel
        have hrd : reads ((.read out, c₁) :: run) = m :: reads run := by simp [reads, hout, hm]
        rw [hrd]
        refine ⟨d, next, q.next :: is, hfin, hd, by omega, ?_, ?_, ?_, ?_⟩
        · rw [map_cons, map_cons, hdel.exact, getElem?_append_left hlt, hm]
        · refine pairwise_cons.mpr ⟨?_, hdel.ordered⟩
          intro i hi
          exact (hdel.within i hi).1
        · intro i hi
          rcases mem_cons.mp hi with rfl | hi
          · omega
          · have := hdel.within i hi
            omega
        · intro i h₁ h₂ hi
          have hne : i ≠ q.next := fun he => hi (he ▸ .head _)
          exact hdel.missed i (by omega) h₂ (fun hi' => hi (.tail _ hi'))

/-- The bytes from the destructive read pointer to the write pointer, page by page. -/
def Context.walk (c : Context) : Nat → Nat → Nat → List UInt8
  | 0, _, _ => []
  | fuel + 1, p, o =>
    if p = c.writePage ∧ o = (c.pages c.writePage).writeOffset then []
    else if o < logPageDataSize then (c.pages p).data o :: c.walk fuel p (o + 1)
    else (c.pages (getNextPage c p)).data 0 :: c.walk fuel (getNextPage c p) 1

def Context.contents (c : Context) : List UInt8 :=
  c.walk (c.numPages * logPageDataSize) c.readPage (c.pages c.readPage).readOffset

theorem walk_eq {r nd w a fuel : Nat} (hl : Layout n r nd w c) (ha : a ≤ w)
    (hlap : w < a + n * logPageDataSize) (hfuel : w - a < fuel) :
    c.walk fuel (page n logPageDataSize a) (offset logPageDataSize a) = c.stream a (w - a) := by
  have hd := logPageDataSize_pos
  induction fuel generalizing a with
  | zero => omega
  | succ fuel ih =>
    rw [walk, hl.writeOffset, hl.writePage]
    have hle : offset logPageDataSize a ≤ logPageDataSize := offset_le hd
    by_cases heq : a = w
    · rw [if_pos ⟨by rw [heq], by rw [heq]⟩, heq, Nat.sub_self]
      rfl
    · have hne : ¬(page n logPageDataSize a = page n logPageDataSize w ∧
          offset logPageDataSize a = offset logPageDataSize w) := by
        rintro ⟨hp, ho⟩
        exact heq (cursor_inj hp ho (by omega) (by omega))
      have hcons : c.stream a (w - a) = c.byte a :: c.stream (a + 1) (w - (a + 1)) := by
        obtain ⟨k, hk⟩ : ∃ k, w - a = k + 1 := ⟨w - a - 1, by omega⟩
        have hk' : w - (a + 1) = k := by omega
        rw [hk, hk']
        simp only [Context.stream, range_succ_eq_map, map_cons, map_map, add_zero]
        congr 1
        refine map_congr_left (fun i _ => ?_)
        simp only [Function.comp, succ_eq_add_one]
        congr 1
        omega
      rw [if_neg hne, hcons]
      by_cases hin : offset logPageDataSize a < logPageDataSize
      · have hcell := cell_stay (n := n) (a := a) (k := 0) hin
        obtain ⟨hp, ho⟩ := advance_stay (n := n) (a := a) (k := 1) hd hin
        rw [if_pos hin, ← ho, ← hp, ih (by omega) (by omega) (by omega), hp]
        simp only [byte, mem, hl.numPages, add_zero] at hcell ⊢
        rw [hcell]
      · have hcell := cell_wrap (a := a) (k := 0) hl.pos hd (by omega)
        obtain ⟨hp, ho⟩ := advance_wrap (n := n) (a := a) (k := 1) hl.pos hd hd (by omega)
        have hone : offset logPageDataSize (a + 1) = 1 := by omega
        have hzero : offset logPageDataSize a + 0 - logPageDataSize = 0 := by omega
        have hnext := ih (a := a + 1) (by omega) (by omega) (by omega)
        rw [hone, hp] at hnext
        rw [if_neg hin, getNextPage_eq, hl.numPages, hnext]
        rw [hzero] at hcell
        simp only [byte, mem, hl.numPages, add_zero] at hcell ⊢
        rw [hcell]

theorem contents_eq {q : Queue} (h : Refines n c q) : c.contents = (q.written.drop q.dropped).flatten := by
  have hl := h.layout
  have hlap := hl.lap
  have hle := le_trans hl.read_le hl.nd_le
  have hptr : c.readPage = page n logPageDataSize (pos q.written q.dropped) := hl.read.ptr
  have hoff : (c.pages c.readPage).readOffset = offset logPageDataSize (pos q.written q.dropped) :=
    hl.read.offs_ptr
  rw [contents, hoff, hptr, hl.numPages, walk_eq hl hle hlap (by omega),
    h.stream (le_rfl) (by omega), drop_pos]
  refine take_of_length_le ?_
  rw [← drop_pos, length_drop]

theorem refines_contextCreate (hn : 0 < n) : Refines n (contextCreate n) ⟨[], 0, 0⟩ where
  msgs := by simp
  dropped_le := le_refl 0
  next_le := le_refl 0
  layout :=
    { numPages := rfl
      pos := hn
      read := Cursor.at_zero n _ _ (fun _ => rfl)
      ndRead := Cursor.at_zero n _ _ (fun _ => rfl)
      writePage := page_zero.symm
      writeOffset := rfl
      read_le := le_refl 0
      nd_le := le_refl 0
      lap := by
        simp only [pos_zero, flatten_nil, length_nil, zero_add]
        exact Nat.mul_pos hn logPageDataSize_pos }
  bytes := by simp
  avail := rfl

def emptyContext : EncodeContext := ⟨0, 0, fun _ => 0, 0⟩

/-- One message of a single 32-bit number is written and read. -/
def oneMessage : List (Action × Context) :=
  let c := commit (contextCreate 1) (encodeMsg emptyContext 2 [.int32 7]).bytes
  [(.write emptyContext 2 [.int32 7], c), (.read (msgRead c).2, (msgRead c).1)]

theorem oneMessage_path : Lts.Path Step (contextCreate 1) oneMessage :=
  ⟨⟨1, rfl⟩, rfl, trivial⟩

/-- How the loop before a write of `len` bytes ends in a log of `n` pages that holds the messages
`ms`: it has dropped the `k` oldest. -/
structure MakesRoom (n len : Nat) (c : Context) (ms : List (List UInt8)) (k : Nat) (c' : Context) : Prop where
  ends : ∃ fuel, dropUntil len fuel c = some c'
  kept : k ≤ ms.length ∧ c'.contents = (ms.drop k).flatten
  enough : len + (ms.drop k).flatten.length < n * logPageDataSize
  /-- Without the last of them there would not be more room than the message needs. -/
  least : ∀ j < k, n * logPageDataSize ≤ len + (ms.drop j).flatten.length
  avail : c'.writeAvail + c'.contents.length = n * logPageDataSize

theorem length_drop_flatten (ms : List (List UInt8)) (k : Nat) :
    (ms.drop k).flatten.length = ms.flatten.length - pos ms k := by
  rw [← drop_pos, length_drop]

/-- `write_avail` counts the bytes of the pages in 32 bits: where they fit, a write drops as few
messages as it can, and only there. -/
theorem makes_room_iff {n : Nat} {run : List (Action × Context)} (hn : 0 < n)
    (hrun : Lts.Path Step (contextCreate n) run) (e : EncodeContext) (type : UInt32) (ws : List TsvWrite) :
    ∃ d, (final (contextCreate n) run).contents = ((writes run).drop d).flatten ∧
      ((∃ k c', MakesRoom n (encodeMsg e type ws).offset (final (contextCreate n) run) ((writes run).drop d) k c') ↔
        n * logPageDataSize < 2 ^ 32) := by
  obtain ⟨d, next, -, hr, -⟩ := refines_run (refines_contextCreate hn) hrun
  rw [nil_append] at hr
  refine ⟨d, contents_eq hr, ?_, fun hfit => ?_⟩
  · rintro ⟨k, c', ⟨⟨fuel, hends⟩, -, -, -, havail⟩⟩
    obtain ⟨d', -, -, -, hr', -⟩ := refines_dropUntil hr hends
    have hmod := hr'.avail
    rw [contents_eq hr', length_drop_flatten] at havail
    rw [← havail, hmod]
    exact mod_lt _ (by decide)
  · have hmsg := isMsg_encodeMsg e type ws
    have hmod := mod_eq_of_lt hfit
    have hlen : (encodeMsg e type ws).offset < n * logPageDataSize := by
      rw [← length_bytes]
      have hpage : logPageDataSize ≤ n * logPageDataSize := Nat.le_mul_of_pos_left _ hn
      exact lt_of_lt_of_le (lt_of_le_of_lt hmsg.le_max (by decide)) hpage
    obtain ⟨fuel, c', hends⟩ := dropUntil_ends hr (hmod.symm ▸ hlen)
    obtain ⟨d', hd, hle, hroom, hr', hleast⟩ := refines_dropUntil hr hends
    have hav := hr'.avail
    have hpos := pos_le (writes run) d'
    dsimp only at hd hle hav hleast
    rw [hmod] at hav hleast
    have hdrop : ∀ k, ((writes run).drop d).drop k = (writes run).drop (d + k) := fun k => drop_drop
    have hall : d + (d' - d) = d' := by omega
    refine ⟨d' - d, c', ⟨fuel, hends⟩, ⟨?_, ?_⟩, ?_, fun j hj => ?_, ?_⟩
    · rw [length_drop]
      omega
    · rw [contents_eq hr', hdrop, hall]
    · rw [hdrop, hall, length_drop_flatten]
      omega
    · rw [hdrop, length_drop_flatten]
      exact hleast (d + j) (by omega) (by omega)
    · rw [contents_eq hr', length_drop_flatten]
      exact hav

theorem makes_room_second : ∃ d k c', MakesRoom 1 (encodeMsg emptyContext 2 [.int32 8]).offset
    (final (contextCreate 1) oneMessage) ((writes oneMessage).drop d) k c' := by
  obtain ⟨d, -, hroom⟩ := makes_room_iff (by decide) oneMessage_path emptyContext 2 [.int32 8]
  exact ⟨d, hroom.mpr (by decide)⟩

/-- An empty log of 1067338 pages, which are 4294968112 bytes, has 816 of them available. -/
theorem large_log_wraps : dropUntil 8 1 (contextCreate 1067338) = some (contextCreate 1067338) ∧
    (contextCreate 1067338).contents = [] ∧ (contextCreate 1067338).writeAvail = 816 ∧
      1067338 * logPageDataSize = 4294968112 := by
  refine ⟨rfl, ?_, rfl, rfl⟩
  exact contents_eq (refines_contextCreate (by decide))

end Sm8850.IpcLog
