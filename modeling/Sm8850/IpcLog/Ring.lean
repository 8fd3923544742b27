import Sm8850.IpcLog.Model

/-! The cursor operations of the log as movements on a ring of pages. -/
namespace Sm8850.IpcLog

open PagedRing Memory List Function Bool Cursor

variable {c c' : Context} {n r nd w len p q : Nat} {pg : Page} {buff : List UInt8}

def Context.readCursor (c : Context) : Cursor := ⟨c.readPage, fun p => (c.pages p).readOffset⟩

def Context.ndCursor (c : Context) : Cursor := ⟨c.ndReadPage, fun p => (c.pages p).ndReadOffset⟩

def Context.mem (c : Context) : Nat → Nat → UInt8 := fun p => (c.pages p).data

/-- Everything a reader leaves alone. -/
structure SameStore (c c' : Context) : Prop where
  numPages : c'.numPages = c.numPages
  mem : c'.mem = c.mem
  writePage : c'.writePage = c.writePage
  writeOffset : ∀ p, (c'.pages p).writeOffset = (c.pages p).writeOffset

theorem SameStore.trans {c'' : Context} (h : SameStore c c') (h' : SameStore c' c'') : SameStore c c'' where
  numPages := h'.numPages.trans h.numPages
  mem := h'.mem.trans h.mem
  writePage := h'.writePage.trans h.writePage
  writeOffset := fun p => (h'.writeOffset p).trans (h.writeOffset p)

theorem getNextPage_eq (c : Context) (p : Nat) : getNextPage c p = next c.numPages p := by
  simp [getNextPage, PagedRing.next, eq_comm]

@[simp] theorem setPage_pages : (c.setPage p pg).pages q = if q = p then pg else c.pages q := by
  simp [Context.setPage, update_apply]

@[simp] theorem setPage_numPages : (c.setPage p pg).numPages = c.numPages := rfl
@[simp] theorem setPage_writePage : (c.setPage p pg).writePage = c.writePage := rfl
@[simp] theorem setPage_readPage : (c.setPage p pg).readPage = c.readPage := rfl
/-- An update of one page keeps what it keeps of that page. -/
theorem proj_setPage {β : Type} (f : Page → β) (h : f pg = f (c.pages p)) (q : Nat) :
    f ((c.setPage p pg).pages q) = f (c.pages q) := by
  rw [setPage_pages]
  split
  · rename_i hq
    rw [hq, h]
  · rfl

theorem proj_update {β : Type} (f : Page → β) : (fun q => f ((c.setPage p pg).pages q)) =
      update (fun q => f (c.pages q)) p (f pg) := by
  funext q
  rw [setPage_pages, update_apply]
  split <;> rfl

section
variable {o : Nat}

theorem sameStore_setPage (hdata : pg.data = (c.pages p).data)
    (hoff : pg.writeOffset = (c.pages p).writeOffset) : SameStore c (c.setPage p pg) where
  numPages := rfl
  mem := funext (proj_setPage Page.data hdata)
  writePage := rfl
  writeOffset := proj_setPage Page.writeOffset hoff

theorem readCursor_setPage (h : pg.readOffset = (c.pages p).readOffset) : (c.setPage p pg).readCursor = c.readCursor :=
  congrArg (mk c.readPage) (funext (proj_setPage Page.readOffset h))

theorem ndCursor_setPage (h : pg.ndReadOffset = (c.pages p).ndReadOffset) : (c.setPage p pg).ndCursor = c.ndCursor :=
  congrArg (mk c.ndReadPage) (funext (proj_setPage Page.ndReadOffset h))

end

/-- The part of a read within one page. -/
def ndMove (c : Context) (len : Nat) : Context :=
  c.setPage c.ndReadPage ((c.pages c.ndReadPage).setNd ((c.pages c.ndReadPage).ndReadOffset + len))

/-- A read leaves its page. -/
def ndTurn (c : Context) : Context :=
  let c := c.setPage c.ndReadPage ((c.pages c.ndReadPage).setNd 0)
  { c with ndReadPage := getNextPage c c.ndReadPage }

theorem ndCursor_ndMove : (ndMove c len).ndCursor = c.ndCursor.move len :=
  congrArg (mk c.ndReadPage) (proj_update Page.ndReadOffset)

theorem ndCursor_ndTurn : (ndTurn c).ndCursor = c.ndCursor.turn c.numPages :=
  congrArg₂ mk (getNextPage_eq _ _) (proj_update Page.ndReadOffset)

theorem readCursor_ndMove : (ndMove c len).readCursor = c.readCursor := readCursor_setPage rfl

theorem readCursor_ndTurn : (ndTurn c).readCursor = c.readCursor :=
  congrArg (mk c.readPage) (funext (proj_setPage Page.readOffset rfl))

theorem sameStore_ndMove : SameStore c (ndMove c len) := sameStore_setPage rfl rfl

theorem sameStore_ndTurn : SameStore c (ndTurn c) where
  numPages := rfl
  mem := funext (proj_setPage Page.data rfl)
  writePage := rfl
  writeOffset := proj_setPage Page.writeOffset rfl

theorem ipcLogRead_eq (c : Context) (len : Nat) : ipcLogRead c len = (if c.ndCursor.room logPageDataSize len ≠ len then
        ndMove (ndTurn c) (len - c.ndCursor.room logPageDataSize len)
      else ndMove c len, c.ndCursor.fetch c.numPages logPageDataSize len c.mem) := by
  have hroom : min (logPageDataSize - (c.pages c.ndReadPage).ndReadOffset) len =
      c.ndCursor.room logPageDataSize len := rfl
  by_cases h : c.ndCursor.room logPageDataSize len = len
  · simp only [ipcLogRead, hroom, h, ne_eq, not_true_eq_false, if_false, fetch]
    rfl
  · have hmem : (ndTurn c).mem = c.mem := sameStore_ndTurn.mem
    simp only [ipcLogRead, hroom, h, ne_eq, not_false_eq_true, if_true, fetch, ← ndCursor_ndTurn]
    nth_rewrite 2 [← hmem]
    rfl

theorem ipcLogRead_spec (c : Context) (len : Nat) :
    (ipcLogRead c len).1.ndCursor = c.ndCursor.advance c.numPages logPageDataSize len ∧
    (ipcLogRead c len).1.readCursor = c.readCursor ∧
    (ipcLogRead c len).1.writeAvail = c.writeAvail ∧ SameStore c (ipcLogRead c len).1 ∧
    (ipcLogRead c len).2 = c.ndCursor.fetch c.numPages logPageDataSize len c.mem := by
  rw [ipcLogRead_eq]
  unfold advance
  split
  · refine ⟨?_, ?_, rfl, sameStore_ndTurn.trans sameStore_ndMove, rfl⟩
    · rw [ndCursor_ndMove, ndCursor_ndTurn]
    · rw [readCursor_ndMove, readCursor_ndTurn]
  · exact ⟨ndCursor_ndMove, readCursor_ndMove, rfl, sameStore_ndMove, rfl⟩

theorem isNdReadEqualRead_iff : isNdReadEqualRead c ↔ (c.ndCursor.ptr = c.readCursor.ptr ∧
      c.ndCursor.offs c.ndCursor.ptr = c.readCursor.offs c.readCursor.ptr) := by
  rw [isNdReadEqualRead, and_eq_true, decide_eq_true_iff, decide_eq_true_iff]
  exact and_congr Iff.rfl eq_comm

/-- The destructive read cursor moves within its page and `len` bytes become available. -/
def readMove (c : Context) (b len : Nat) : Context :=
  let c := c.setPage c.readPage ((c.pages c.readPage).setRead ((c.pages c.readPage).readOffset + b))
  { c with writeAvail := c.writeAvail + len }

theorem readCursor_readMove {b : Nat} : (readMove c b len).readCursor = c.readCursor.move b :=
  congrArg (mk c.readPage) (proj_update Page.readOffset)

theorem ndCursor_readMove {b : Nat} : (readMove c b len).ndCursor = c.ndCursor :=
  congrArg (mk c.ndReadPage) (funext (proj_setPage Page.ndReadOffset rfl))

theorem sameStore_readMove {b : Nat} : SameStore c (readMove c b len) where
  numPages := rfl
  mem := funext (proj_setPage Page.data rfl)
  writePage := rfl
  writeOffset := proj_setPage Page.writeOffset rfl

theorem dropTail_eq (c : Context) (b len : Nat) : dropTail c b len =
    if isNdReadEqualRead c then ndMove (readMove c b len) b else readMove c b len := rfl

theorem dropTail_spec (c : Context) (b len : Nat) : (dropTail c b len).readCursor = c.readCursor.move b ∧
    (dropTail c b len).ndCursor = (if isNdReadEqualRead c then c.ndCursor.move b else c.ndCursor) ∧
    (dropTail c b len).writeAvail = c.writeAvail + len ∧ SameStore c (dropTail c b len) := by
  rw [dropTail_eq]
  split
  · refine ⟨?_, ?_, rfl, sameStore_readMove.trans sameStore_ndMove⟩
    · rw [readCursor_ndMove, readCursor_readMove]
    · rw [ndCursor_ndMove, ndCursor_readMove]
  · exact ⟨readCursor_readMove, ndCursor_readMove, rfl, sameStore_readMove⟩

/-- The destructive read cursor leaves its page, alone or with the other cursor. -/
def readTurn (c : Context) : Context :=
  let push := isNdReadEqualRead c
  let c := c.setPage c.readPage ((c.pages c.readPage).setRead 0)
  if push then
    let c := c.setPage c.readPage ((c.pages c.readPage).setNd 0)
    let next := getNextPage c c.readPage
    { c with readPage := next, ndReadPage := next }
  else { c with readPage := getNextPage c c.readPage }

theorem sameStore_readTurn : SameStore c (readTurn c) := by
  have h₁ : SameStore c (c.setPage c.readPage ((c.pages c.readPage).setRead 0)) :=
    sameStore_setPage rfl rfl
  unfold readTurn
  dsimp only
  generalize c.setPage c.readPage ((c.pages c.readPage).setRead 0) = u at h₁ ⊢
  split
  · have h₂ : SameStore u (u.setPage u.readPage ((u.pages u.readPage).setNd 0)) :=
      sameStore_setPage rfl rfl
    have h := h₁.trans h₂
    exact ⟨h.numPages, h.mem, h.writePage, h.writeOffset⟩
  · exact ⟨h₁.numPages, h₁.mem, h₁.writePage, h₁.writeOffset⟩

theorem readTurn_writeAvail : (readTurn c).writeAvail = c.writeAvail := by
  unfold readTurn
  dsimp only
  split <;> rfl

theorem readCursor_readTurn : (readTurn c).readCursor = c.readCursor.turn c.numPages := by
  have hoffs : (c.setPage c.readPage ((c.pages c.readPage).setRead 0)).readCursor =
      ⟨c.readPage, update c.readCursor.offs c.readPage 0⟩ :=
    congrArg (mk c.readPage) (proj_update Page.readOffset)
  unfold readTurn
  dsimp only
  split
  · refine congrArg₂ mk (getNextPage_eq _ _) (Eq.trans ?_ (congrArg offs hoffs))
    exact funext (proj_setPage Page.readOffset rfl)
  · exact congrArg₂ mk (getNextPage_eq _ _) (congrArg offs hoffs)

theorem ndCursor_readTurn_push (h : isNdReadEqualRead c) :
    (readTurn c).ndCursor = c.ndCursor.turn c.numPages := by
  have hptr : c.ndReadPage = c.readPage := (isNdReadEqualRead_iff.mp h).1
  unfold readTurn
  simp only [h, if_true]
  refine congrArg₂ mk ?_ ?_
  · exact (getNextPage_eq _ _).trans (congrArg (next c.numPages) hptr.symm)
  · funext q
    by_cases hq : q = c.readPage
    · simp [Context.ndCursor, hq, hptr, Page.setNd]
    · simp [Context.ndCursor, hq, hptr]

theorem ndCursor_readTurn (h : isNdReadEqualRead c = false) : (readTurn c).ndCursor = c.ndCursor := by
  unfold readTurn
  simp only [h, false_eq_true, if_false]
  exact congrArg (mk c.ndReadPage) (funext (proj_setPage Page.ndReadOffset rfl))

theorem ipcLogDrop_eq (c : Context) (len : Nat) :
    ipcLogDrop c len = (if c.readCursor.room logPageDataSize len ≠ len then
        dropTail (readTurn c) (len - c.readCursor.room logPageDataSize len) len
      else dropTail c len len, c.readCursor.fetch c.numPages logPageDataSize len c.mem) := by
  have hroom : min (logPageDataSize - (c.pages c.readPage).readOffset) len =
      c.readCursor.room logPageDataSize len := rfl
  by_cases h : c.readCursor.room logPageDataSize len = len
  · simp only [ipcLogDrop, hroom, h, ne_eq, not_true_eq_false, if_false, fetch]
    rfl
  · have hmem : (readTurn c).mem = c.mem := sameStore_readTurn.mem
    simp only [ipcLogDrop, hroom, h, ne_eq, not_false_eq_true, if_true, fetch, ← readCursor_readTurn]
    nth_rewrite 2 [← hmem]
    rfl

theorem logPageDataSize_pos : 0 < logPageDataSize := by decide

/-- The three cursors have passed `r`, `nd` and `w` bytes, in this order and within one
lap of the ring. -/
structure Layout (n r nd w : Nat) (c : Context) : Prop where
  numPages : c.numPages = n
  pos : 0 < n
  read : c.readCursor.At n logPageDataSize r
  ndRead : c.ndCursor.At n logPageDataSize nd
  writePage : c.writePage = page n logPageDataSize w
  writeOffset : (c.pages c.writePage).writeOffset = offset logPageDataSize w
  read_le : r ≤ nd
  nd_le : nd ≤ w
  lap : w < r + n * logPageDataSize

/-- The byte stored at position `a`. -/
def Context.byte (c : Context) (a : Nat) : UInt8 :=
  c.mem (cell c.numPages logPageDataSize a).1 (cell c.numPages logPageDataSize a).2

/-- The bytes at positions `a` to `a + len`. -/
def Context.stream (c : Context) (a len : Nat) : List UInt8 :=
  (List.range len).map (fun i => c.byte (a + i))

theorem SameStore.byte (h : SameStore c c') (a : Nat) : c'.byte a = c.byte a := by
  unfold Context.byte
  rw [h.mem, h.numPages]

theorem SameStore.layout (h : SameStore c c') (hl : Layout n r nd w c) {r' nd' : Nat}
    (hread : c'.readCursor.At n logPageDataSize r') (hnd : c'.ndCursor.At n logPageDataSize nd')
    (h₁ : r' ≤ nd') (h₂ : nd' ≤ w) (h₃ : r ≤ r') : Layout n r' nd' w c' where
  numPages := h.numPages.trans hl.numPages
  pos := hl.pos
  read := hread
  ndRead := hnd
  writePage := h.writePage.trans hl.writePage
  writeOffset := by rw [h.writePage, h.writeOffset, hl.writeOffset]
  read_le := h₁
  nd_le := h₂
  lap := lt_of_lt_of_le hl.lap (Nat.add_le_add_right h₃ _)

section
variable (hl : Layout n r nd w c)
include hl

/-- A read returns the next bytes and moves only the non-destructive cursor. -/
theorem layout_ipcLogRead (hlen : len ≤ logPageDataSize) (hw : nd + len ≤ w) :
    Layout n r (nd + len) w (ipcLogRead c len).1 ∧ SameStore c (ipcLogRead c len).1 ∧
    (ipcLogRead c len).1.writeAvail = c.writeAvail ∧ (ipcLogRead c len).2 = c.stream nd len := by
  obtain ⟨hnd, hread, havail, hsame, hdata⟩ := ipcLogRead_spec c len
  rw [hl.numPages] at hnd hdata
  refine ⟨?_, hsame, havail, ?_⟩
  · refine hsame.layout hl (hread ▸ hl.read) ?_ (by have := hl.read_le; omega) hw (le_refl r)
    rw [hnd]
    exact hl.ndRead.advance hl.pos logPageDataSize_pos hlen
  · rw [hdata, hl.ndRead.fetch hl.pos logPageDataSize_pos hlen]
    simp [Context.stream, Context.byte, hl.numPages]

theorem isNdReadEqualRead_layout : isNdReadEqualRead c ↔ nd = r := by
  have h₁ := hl.read_le
  have h₂ := hl.nd_le
  have h₃ := hl.lap
  rw [isNdReadEqualRead_iff]
  exact hl.ndRead.same_iff hl.read (by omega) (by omega)

/-- After the destructive cursor has turned a page, the other one stands with it only if
it was pushed: a cursor past the start is never at offset zero. -/
theorem isNdReadEqualRead_readTurn (hne : nd = r ∨ 0 < nd) : isNdReadEqualRead (readTurn c) ↔ nd = r := by
  have hzero : ∀ p, (readTurn c).readCursor.offs p = 0 := by
    intro p
    rw [readCursor_readTurn, hl.numPages]
    exact hl.read.offs_turn p
  by_cases heq : nd = r
  · have hpush := (isNdReadEqualRead_layout hl).mpr heq
    have hsame := isNdReadEqualRead_iff.mp hpush
    rw [isNdReadEqualRead_iff, hzero, ndCursor_readTurn_push hpush, readCursor_readTurn, hl.numPages,
      hl.ndRead.offs_turn]
    simp [heq, turn, hsame.1]
  · have hpush : isNdReadEqualRead c = false := by
      rw [← not_eq_true, isNdReadEqualRead_layout hl]
      exact heq
    rw [isNdReadEqualRead_iff, hzero, ndCursor_readTurn hpush, hl.ndRead.offs_ptr]
    have hpos : 0 < offset logPageDataSize nd := offset_pos (hne.resolve_left heq)
    constructor
    · rintro ⟨_, h⟩
      omega
    · exact fun h => absurd h heq

/-- A drop returns the oldest bytes and frees them; the non-destructive cursor is pushed
only where it stood at the destructive one. -/
theorem layout_ipcLogDrop (hlen : len ≤ logPageDataSize) (hw : r + len ≤ w) (hnd : nd = r ∨ r + len ≤ nd) :
    Layout n (r + len) (if nd = r then r + len else nd) w (ipcLogDrop c len).1 ∧ SameStore c (ipcLogDrop c len).1 ∧
    (ipcLogDrop c len).1.writeAvail = c.writeAvail + len ∧ (ipcLogDrop c len).2 = c.stream r len := by
  have hd := logPageDataSize_pos
  rw [ipcLogDrop_eq, hl.numPages]
  have hadv : (c.readCursor.advance n logPageDataSize len).At n logPageDataSize (r + len) :=
    hl.read.advance hl.pos hd hlen
  have hadvnd : nd = r →
      (c.ndCursor.advance n logPageDataSize len).At n logPageDataSize (r + len) := by
    rintro rfl
    exact hl.ndRead.advance hl.pos hd hlen
  have hdata : c.readCursor.fetch n logPageDataSize len c.mem = c.stream r len := by
    rw [hl.read.fetch hl.pos hd hlen]
    simp [Context.stream, Context.byte, hl.numPages]
  have hroom : nd = r → c.ndCursor.room logPageDataSize len = c.readCursor.room logPageDataSize len := by
    rintro rfl
    rw [room, room, hl.ndRead.offs_ptr, hl.read.offs_ptr]
  -- it is enough to say where the two cursors end
  have hfinish : ∀ u, SameStore c u → u.writeAvail = c.writeAvail + len →
      u.readCursor = c.readCursor.advance n logPageDataSize len →
      u.ndCursor = (if nd = r then c.ndCursor.advance n logPageDataSize len else c.ndCursor) →
      Layout n (r + len) (if nd = r then r + len else nd) w u ∧ SameStore c u ∧ u.writeAvail = c.writeAvail + len ∧
        c.readCursor.fetch n logPageDataSize len c.mem = c.stream r len := by
    intro u hsame havail hread hndc
    refine ⟨?_, hsame, havail, hdata⟩
    rw [← hread] at hadv
    by_cases heq : nd = r
    · rw [if_pos heq] at hndc ⊢
      exact hsame.layout hl hadv (hndc ▸ hadvnd heq) (le_rfl) hw (by omega)
    · rw [if_neg heq] at hndc ⊢
      exact hsame.layout hl hadv (hndc ▸ hl.ndRead) (hnd.resolve_left heq) hl.nd_le (by omega)
  by_cases hfit : c.readCursor.room logPageDataSize len = len
  · rw [if_neg (not_not.mpr hfit)]
    obtain ⟨h₁, h₂, h₃, h₄⟩ := dropTail_spec c len len
    refine hfinish _ h₄ h₃ ?_ ?_
    · rw [h₁, advance, if_neg (not_not.mpr hfit)]
    · rw [h₂]
      by_cases heq : nd = r
      · rw [if_pos ((isNdReadEqualRead_layout hl).mpr heq), if_pos heq, advance,
          if_neg (not_not.mpr ((hroom heq).trans hfit))]
      · rw [if_neg (fun h => heq ((isNdReadEqualRead_layout hl).mp h)), if_neg heq]
  · rw [if_pos hfit]
    have hpos : nd = r ∨ 0 < nd := by
      rcases hnd with h | h
      · exact .inl h
      · have hlen0 : len ≠ 0 := by
          rintro rfl
          exact hfit (Nat.min_zero _)
        exact .inr (by omega)
    have hagain := isNdReadEqualRead_readTurn hl hpos
    obtain ⟨h₁, h₂, h₃, h₄⟩ := dropTail_spec (readTurn c)
      (len - c.readCursor.room logPageDataSize len) len
    refine hfinish _ (sameStore_readTurn.trans h₄) (by rw [h₃, readTurn_writeAvail]) ?_ ?_
    · rw [h₁, readCursor_readTurn, hl.numPages, advance, if_pos hfit]
    · rw [h₂]
      by_cases heq : nd = r
      · have hfit' : c.ndCursor.room logPageDataSize len ≠ len := by
          rw [hroom heq]
          exact hfit
        rw [if_pos (hagain.mpr heq), if_pos heq, advance, if_pos hfit', hroom heq,
          ndCursor_readTurn_push ((isNdReadEqualRead_layout hl).mpr heq), hl.numPages]
      · have hpush : isNdReadEqualRead c = false := by
          rw [← not_eq_true, isNdReadEqualRead_layout hl]
          exact heq
        rw [if_neg (fun h => heq (hagain.mp h)), if_neg heq, ndCursor_readTurn hpush]

end

/-- A memcpy that lands on the cells from position `x` on changes those cells only, as far
as one lap reaches. -/
theorem byte_setPage {x a o : Nat} (hn : c.numPages = n)
    (hcell : ∀ i < buff.length, cell n logPageDataSize (x + i) = (p, o + i))
    (hdata : pg.data = poke (c.pages p).data o buff)
    (h₁ : x + buff.length ≤ a + n * logPageDataSize) (h₂ : a < x + n * logPageDataSize) :
    (c.setPage p pg).byte a = if x ≤ a then (buff[a - x]?).getD (c.byte a) else c.byte a := by
  have hbyte : (c.setPage p pg).byte a = if (cell n logPageDataSize a).1 = p then
        poke (c.pages p).data o buff (cell n logPageDataSize a).2 else c.byte a := by
    simp only [Context.byte, Context.mem, setPage_pages, setPage_numPages, hn]
    split
    · rw [hdata]
    · rfl
  by_cases hin : x ≤ a ∧ a < x + buff.length
  · obtain ⟨i, rfl⟩ : ∃ i, a = x + i := ⟨a - x, by omega⟩
    have hi : i < buff.length := by omega
    rw [hbyte, hcell i hi]
    simp [poke, hi]
  · have hnot : ∀ i < buff.length, cell n logPageDataSize a ≠ (p, o + i) := by
      intro i hi he
      have heq := cell_inj (he.trans (hcell i hi).symm) (by omega) (by omega)
      omega
    have hkeep : (c.setPage p pg).byte a = c.byte a := by
      rw [hbyte]
      split
      · rename_i hp
        unfold poke
        split
        · rename_i ho
          have hlen : buff.length ≤ (cell n logPageDataSize a).2 - o := by
            by_contra hlt
            refine hnot ((cell n logPageDataSize a).2 - o) (by omega) (Prod.ext hp ?_)
            omega
          rw [getElem?_eq_none hlen, Option.getD_none, ← hp]
          simp [Context.byte, Context.mem, hn]
        · rw [← hp]
          simp [Context.byte, Context.mem, hn]
      · rfl
    rw [hkeep]
    split
    · rename_i hx
      rw [getElem?_eq_none (by omega), Option.getD_none]
    · rfl

/-- Everything a writer leaves alone. -/
structure SameReaders (c c' : Context) : Prop where
  numPages : c'.numPages = c.numPages
  read : c'.readCursor = c.readCursor
  ndRead : c'.ndCursor = c.ndCursor

theorem sameReaders_setPage (h₁ : pg.readOffset = (c.pages p).readOffset)
    (h₂ : pg.ndReadOffset = (c.pages p).ndReadOffset) : SameReaders c (c.setPage p pg) :=
  ⟨rfl, readCursor_setPage h₁, ndCursor_setPage h₂⟩

/-- The first copy of a write. -/
def writeHere (c : Context) (bytes : List UInt8) : Context :=
  c.setPage c.writePage ((c.pages c.writePage).write bytes)

/-- The second copy of a write, on the next page. -/
def writeNext (c : Context) (bytes : List UInt8) : Context :=
  let next := getNextPage c c.writePage
  let pg := { c.pages next with writeOffset := 0 }
  { c.setPage next (pg.write bytes) with writePage := next }

theorem commit_eq (c : Context) (buff : List UInt8) :
    commit c buff = let b := min (logPageDataSize - (c.pages c.writePage).writeOffset) buff.length
      let c' := if b ≠ buff.length then writeNext (writeHere c (buff.take b)) (buff.drop b)
        else writeHere c (buff.take b)
      { c' with writeAvail := c'.writeAvail - buff.length } := rfl

theorem sameReaders_writeHere : SameReaders c (writeHere c buff) := sameReaders_setPage rfl rfl

theorem sameReaders_writeNext : SameReaders c (writeNext c buff) where
  numPages := rfl
  read := congrArg (mk c.readPage) (funext (proj_setPage Page.readOffset rfl))
  ndRead := congrArg (mk c.ndReadPage) (funext (proj_setPage Page.ndReadOffset rfl))

/-- The state after the copies of a write, before the space is accounted for. -/
structure Copied (n r w : Nat) (buff : List UInt8) (c c' : Context) : Prop where
  readers : SameReaders c c'
  writeAvail : c'.writeAvail = c.writeAvail
  writePage : c'.writePage = page n logPageDataSize (w + buff.length)
  writeOffset : (c'.pages c'.writePage).writeOffset = offset logPageDataSize (w + buff.length)
  byte : ∀ a, r ≤ a → a < w + buff.length →
    c'.byte a = if w ≤ a then (buff[a - w]?).getD (c.byte a) else c.byte a

section
variable (hl : Layout n r nd w c) (hlap : w + buff.length < r + n * logPageDataSize)
include hl hlap

theorem copied_stay
    (hfit : offset logPageDataSize w + buff.length ≤ logPageDataSize) : Copied n r w buff c (writeHere c buff) := by
  have hrw : r ≤ w := le_trans hl.read_le hl.nd_le
  obtain ⟨hp, ho⟩ := advance_stay (n := n) logPageDataSize_pos hfit
  refine ⟨sameReaders_writeHere, rfl, hl.writePage.trans hp.symm, ?_, ?_⟩
  · rw [ho, ← hl.writeOffset]
    simp [writeHere, Page.write]
  · intro a ha₁ ha₂
    refine byte_setPage (x := w) hl.numPages ?_ rfl (by omega) (by omega)
    intro i hi
    rw [hl.writeOffset, hl.writePage]
    exact cell_stay (by omega)

theorem copied_wrap
    (hlen : buff.length ≤ logPageDataSize) (hfit : logPageDataSize < offset logPageDataSize w + buff.length) :
    Copied n r w buff c (writeNext (writeHere c (buff.take (logPageDataSize -
      offset logPageDataSize w))) (buff.drop (logPageDataSize - offset logPageDataSize w))) := by
  have hrw : r ≤ w := le_trans hl.read_le hl.nd_le
  have hle : offset logPageDataSize w ≤ logPageDataSize := offset_le logPageDataSize_pos
  obtain ⟨hp, ho⟩ := advance_wrap hl.pos logPageDataSize_pos hlen hfit
  generalize hb : logPageDataSize - offset logPageDataSize w = b
  have hnext : getNextPage (writeHere c (buff.take b)) (writeHere c (buff.take b)).writePage =
      next n (page n logPageDataSize w) := by
    rw [getNextPage_eq, sameReaders_writeHere.numPages, hl.numPages, ← hl.writePage]
    rfl
  refine ⟨?_, rfl, ?_, ?_, ?_⟩
  · exact ⟨rfl, sameReaders_writeNext.read.trans sameReaders_writeHere.read,
      sameReaders_writeNext.ndRead.trans sameReaders_writeHere.ndRead⟩
  · rw [hp, ← hnext]
    rfl
  · rw [ho]
    simp only [writeNext, setPage_pages, if_true, Page.write, length_drop]
    omega
  · intro a ha₁ ha₂
    have hfirst : (writeHere c (buff.take b)).byte a =
        if w ≤ a then ((buff.take b)[a - w]?).getD (c.byte a) else c.byte a := by
      refine byte_setPage (x := w) hl.numPages ?_ rfl (by rw [length_take]; omega) (by omega)
      intro i hi
      rw [length_take] at hi
      rw [hl.writeOffset, hl.writePage]
      exact cell_stay (by omega)
    have hsecond : (writeNext (writeHere c (buff.take b)) (buff.drop b)).byte a =
        if w + b ≤ a then ((buff.drop b)[a - (w + b)]?).getD ((writeHere c (buff.take b)).byte a)
        else (writeHere c (buff.take b)).byte a := by
      refine byte_setPage (x := w + b) (o := 0) hl.numPages ?_ rfl
        (by rw [length_drop]; omega) (by omega)
      intro i hi
      rw [length_drop] at hi
      have hi' : offset logPageDataSize w + (b + i) - logPageDataSize = 0 + i := by omega
      rw [hnext, add_assoc, cell_wrap hl.pos (show b + i < logPageDataSize by omega) (by omega), hi']
    rw [hsecond, hfirst]
    by_cases h₁ : w + b ≤ a
    · have hidx : b + (a - (w + b)) = a - w := by omega
      have hlt : a - w < buff.length := by omega
      have hwa : w ≤ a := by omega
      rw [if_pos h₁, getElem?_drop, hidx]
      simp [hlt, hwa]
    · rw [if_neg h₁]
      split
      · rw [getElem?_take_of_lt (by omega)]
      · rfl

end

/-- A write appends its bytes. -/
theorem layout_commit (hl : Layout n r nd w c) (hlen : buff.length ≤ logPageDataSize)
    (hlap : w + buff.length < r + n * logPageDataSize) : Layout n r nd (w + buff.length) (commit c buff) ∧
    (commit c buff).writeAvail = c.writeAvail - buff.length ∧ (∀ a, r ≤ a → a < w → (commit c buff).byte a = c.byte a) ∧
    (commit c buff).stream w buff.length = buff := by
  have hle : offset logPageDataSize w ≤ logPageDataSize := offset_le logPageDataSize_pos
  have hrw : r ≤ w := le_trans hl.read_le hl.nd_le
  obtain ⟨u, hu, hcommit⟩ : ∃ u, Copied n r w buff c u ∧
      commit c buff = { u with writeAvail := u.writeAvail - buff.length } := by
    rw [commit_eq, hl.writeOffset]
    by_cases hfit : offset logPageDataSize w + buff.length ≤ logPageDataSize
    · refine ⟨_, copied_stay hl hlap hfit, ?_⟩
      have hb : min (logPageDataSize - offset logPageDataSize w) buff.length = buff.length := by
        omega
      simp [hb]
    · refine ⟨_, copied_wrap hl hlap hlen (by omega), ?_⟩
      have hb : min (logPageDataSize - offset logPageDataSize w) buff.length =
          logPageDataSize - offset logPageDataSize w := by omega
      have hne : logPageDataSize - offset logPageDataSize w ≠ buff.length := by omega
      simp [hb, hne]
  have hbyte : ∀ a, (commit c buff).byte a = u.byte a := by
    intro a
    rw [hcommit]
    rfl
  refine ⟨?_, ?_, ?_, ?_⟩
  · rw [hcommit]
    exact ⟨hu.readers.numPages.trans hl.numPages, hl.pos, hu.readers.read ▸ hl.read,
      hu.readers.ndRead ▸ hl.ndRead, hu.writePage, hu.writeOffset, hl.read_le,
      le_trans hl.nd_le (Nat.le_add_right _ _), hlap⟩
  · rw [hcommit, ← hu.writeAvail]
  · intro a ha₁ ha₂
    rw [hbyte, hu.byte a ha₁ (by omega), if_neg (by omega)]
  · refine ext_getElem (by simp [Context.stream]) ?_
    intro i h₁ h₂
    simp only [Context.stream, getElem_map, getElem_range]
    rw [hbyte, hu.byte (w + i) (by omega) (by omega), if_pos (by omega)]
    simp [h₂]

end Sm8850.IpcLog
