import Sm8850.Iopt.Pte

/-! The io-pgtable operations of drivers/iommu/qcom-io-pgtable-arm.c over a flat memory of 64-bit
words: mapping with and without the cached map state, unmapping with block splitting, and the
translation. Pointers are word indices. Cache maintenance, TLB invalidation and the lock change
no entry and are left out, and calls run one after another. -/
namespace Sm8850.Iopt

inductive Errno where
  | einval
  | enomem
  | eexist
  | erange
deriving DecidableEq

/-- Memory, the pages the tables occupy, and what the page allocator is going to return. -/
structure State where
  mem : Nat → U64
  pages : List Nat
  supply : Nat → Option Nat

/-! ### Pages -/

/-- The words of one page of the kernel. -/
def pageWords (d : Data) : Nat := 2 ^ d.cfg.pageShift / 8

/-- A page the allocator can hand out: not in use, aligned, and with a 48-bit address. -/
def freePage (d : Data) (s : State) (pg : Nat) : Bool :=
  !(s.pages.contains pg) && pg % pageWords d == 0 && decide (8 * pg < 2 ^ 48)

/-- `__arm_lpae_alloc_pages`: one zeroed page, whatever the size of a table. -/
def allocPages (d : Data) (s : State) : State × Option Nat :=
  let s' := { s with supply := fun n => s.supply (n + 1) }
  match s.supply 0 with
  | none => (s', none)
  | some pg =>
    if freePage d s pg then
      ({ s' with mem := fun a => if pg ≤ a ∧ a < pg + pageWords d then 0 else s.mem a
                 pages := pg :: s.pages }, some pg)
    else (s', none)

def freePages (s : State) (pages : List Nat) : State :=
  { s with pages := s.pages.filter (fun p => !(pages.contains p)) }

/-- The pages `__arm_lpae_free_pgtable` gives back for a table with `r` levels from it down. -/
def tablePages (d : Data) (mem : Nat → U64) : (r tbl : Nat) → List Nat
  | 0, _ => []
  | 1, tbl => [tbl]
  | r + 2, tbl => tbl :: (List.range d.ptesPerTable).flatMap fun i =>
      let pte := mem (tbl + i)
      if pte = 0 ∨ iopteLeaf d pte (2 - r) then [] else tablePages d mem (r + 1) (iopteDeref d pte)

def freePgtable (d : Data) (r : Nat) (s : State) (tbl : Nat) : State :=
  freePages s (tablePages d s.mem r tbl)

/-! ### Entries -/

/-- `__arm_lpae_set_pte`. -/
def setPte (s : State) (ptep : Nat) (pte : U64) (num : Nat) : State :=
  { s with mem := fun a => if ptep ≤ a ∧ a < ptep + num then pte else s.mem a }

/-- A pointer write of a single entry. -/
def writePte (s : State) (ptep : Nat) (pte : U64) : State := setPte s ptep pte 1

/-- `__arm_lpae_init_pte`: one leaf after the other, at consecutive addresses. -/
def fillPte (d : Data) (s : State) (paddr : Nat) (prot : U64) (lvl num ptep : Nat) : State :=
  { s with mem := fun a =>
      if ptep ≤ a ∧ a < ptep + num then leafPte d prot lvl (paddr + (a - ptep) * d.blockSize lvl)
      else s.mem a }

/-- An `int` made from a size_t. -/
def toInt32 (n : Nat) : Int := (BitVec.ofNat 32 n).toInt

/-- `arm_lpae_init_pte`; `none` is -EEXIST. -/
def initPte (d : Data) (s : State) (paddr : Nat) (prot : U64) (lvl : Nat) (num : Int) (ptep : Nat)
    (prev : Option Nat) : Option State :=
  if (List.range num.toNat).any (fun i => s.mem (ptep + i) &&& pteValid != 0) then none
  else
    let s' := fillPte d s paddr prot lvl num.toNat ptep
    match prev with
    | none => some s'
    | some p => some (writePte s' p (iopteTblcntAdd (s'.mem p) num))

/-- The entry for a table with `refcount` entries in use. -/
def tablePte (d : Data) (table : Nat) (refcount : Int) : U64 :=
  iopteTblcntSet (BitVec.ofNat 64 (8 * table) ||| pteTypeTable ||| orIf d.cfg.quirkArmNs pteNstable)
    refcount

/-- `arm_lpae_install_table`, with the entry that was there before. -/
def installTable (d : Data) (s : State) (table ptep : Nat) (curr : U64) (refcount : Int) : State × U64 :=
  let new := tablePte d table refcount
  let old := s.mem ptep
  let s' := if old = curr then writePte s ptep new else s
  if d.cfg.coherentWalk ∨ old &&& pteSwSync ≠ 0 then (s', old)
  else if old = curr then (writePte s' ptep (new ||| pteSwSync), old) else (s', old)

/-! ### Mapping -/

/-- `struct map_state`, without what only the cache maintenance reads. -/
structure MapState where
  iovaEnd : Nat
  pgtable : Option Nat
  prevPgtable : Option Nat

def MapState.zero : MapState := ⟨0, none, none⟩

/-- The next table of a walk that maps: the one there is or a new one. -/
def childTable (d : Data) (s : State) (ptep lvl : Nat) : State × Except Errno Nat :=
  let follow (s : State) (pte : U64) : State × Except Errno Nat :=
    if iopteLeaf d pte lvl then (s, .error .eexist) else (s, .ok (iopteDeref d pte))
  if s.mem ptep = 0 then
    match allocPages d s with
    | (s, none) => (s, .error .enomem)
    | (s, some cptep) =>
      let (s, old) := installTable d s cptep ptep 0 0
      if old = 0 then (s, .ok cptep) else follow (freePages s [cptep]) old
  else follow s (s.mem ptep)

/-- The leaf case of `__arm_lpae_map` without a map state. -/
def mapLeaf (d : Data) (iova paddr : Nat) (s : State) (size pgcount : Nat) (prot : U64) (lvl tbl : Nat)
    (prev : Option Nat) : State × Except Errno U64 :=
  let idx := d.lvlIdx iova lvl
  let num := min (toInt32 pgcount) (d.ptesPerTable - idx)
  match initPte d s paddr prot lvl num (tbl + idx) prev with
  | none => (s, .error .eexist)
  | some s' => (s', .ok (BitVec.ofInt 64 (size * num)))

/-- The leaf case of `__arm_lpae_map` with a map state, which a page sets and a block clears. -/
def mapLeafCached (d : Data) (iova paddr : Nat) (s : State) (size pgcount : Nat) (prot : U64)
    (lvl tbl : Nat) (prev : Option Nat) : State × Except Errno U64 × MapState :=
  let prevBlock := d.blockSize (lvl - 1)
  let ms := if lvl = 3 then
      ⟨(iova / prevBlock * prevBlock + prevBlock) % 2 ^ 64, some tbl, prev⟩ else MapState.zero
  match initPte d s paddr prot lvl (toInt32 pgcount) (tbl + d.lvlIdx iova lvl) prev with
  | none => (s, .error .eexist, ms)
  | some s' => (s', .ok (BitVec.ofNat 64 size), ms)

/-- `__arm_lpae_map` with `r` levels left, so at level `4 - r`. `ms = none` is a null pointer, and
the result of a mapping is what it adds to `*mapped`. -/
def lpaeMap (d : Data) (iova paddr : Nat) : (r : Nat) → State → (size pgcount : Nat) → (prot : U64) →
    (tbl : Nat) → (prev : Option Nat) → Option MapState → State × Except Errno U64 × Option MapState
  | 0, s, _, _, _, _, _, ms => (s, .error .einval, ms)
  | r + 1, s, size, pgcount, prot, tbl, prev, ms =>
    let lvl := 3 - r
    if size = d.blockSize lvl then
      match ms with
      | none =>
        let (s, ret) := mapLeaf d iova paddr s size pgcount prot lvl tbl prev
        (s, ret, none)
      | some _ =>
        let (s, ret, ms) := mapLeafCached d iova paddr s size pgcount prot lvl tbl prev
        (s, ret, some ms)
    else if lvl = 3 then (s, .error .einval, ms)
    else
      let ptep := tbl + d.lvlIdx iova lvl
      match childTable d s ptep lvl with
      | (s, .error e) => (s, .error e, ms)
      | (s, .ok cptep) =>
        if pteIsContiguousRange d size (lvl + 1) then
          lpaeMap d iova paddr r s (d.blockSize (lvl + 1)) (findNumCont d (lvl + 1) * pgcount)
            (prot ||| pteCont) cptep (some ptep) ms
        else lpaeMap d iova paddr r s size pgcount prot cptep (some ptep) ms

/-- `(s64)iova >> ias`, inverted for the upper half of the address space. -/
def iaext (d : Data) (iova : Nat) : Int :=
  let ext := (BitVec.ofNat 64 iova).toInt / 2 ^ d.cfg.ias
  if d.cfg.quirkArmTtbr1 then -ext - 1 else ext

/-- The first checks of both operations. -/
def badPgsize (d : Data) (pgsize pgcount : Nat) : Bool :=
  pgsize == 0 || pgsize &&& d.cfg.pgsizeBitmap != pgsize || pgcount == 0

/-- `qcom_arm_lpae_map_pages`. -/
def mapPages (d : Data) (s : State) (iova paddr pgsize pgcount : Nat) (prot : Prot) :
    State × Except Errno U64 :=
  if badPgsize d pgsize pgcount then (s, .error .einval)
  else if iaext d iova ≠ 0 ∨ paddr / 2 ^ d.cfg.oas ≠ 0 then (s, .error .erange)
  else if !(prot.read || prot.write) then (s, .ok 0)
  else
    let (s, ret, _) := lpaeMap d iova paddr (4 - d.startLevel) s pgsize pgcount (protToPte d prot)
      d.pgd none none
    (s, ret)

/-! ### Mapping a scatterlist -/

/-- `arm_lpae_pgsize`. -/
def choosePgsize (bitmap addrMerge size : Nat) : Nat :=
  let idx := if addrMerge = 0 then fls size else min (fls size) (ffs addrMerge)
  2 ^ fls ((2 ^ (idx + 1) - 1) &&& bitmap)

/-- The loop of `arm_lpae_map_by_pgsize`, with what it added to `*mapped`. A page size is at
least one, so `fuel = size` rounds are enough. -/
def mapBySizeLoop (d : Data) (prot : U64) : (fuel : Nat) → State → (iova paddr size mapped : Nat) →
    MapState → State × Option Errno × Nat × MapState
  | 0, s, _, _, _, mapped, ms => (s, none, mapped, ms)
  | fuel + 1, s, iova, paddr, size, mapped, ms =>
    if size = 0 then (s, none, mapped, ms)
    else
      let pgsize := choosePgsize d.cfg.pgsizeBitmap (iova ||| paddr) size
      let step : State × Option Errno × MapState :=
        match ms.pgtable with
        | some tbl =>
          if iova < ms.iovaEnd then
            match initPte d s paddr prot 3 (checkAndSetNumCont d pgsize 3) (tbl + d.lvlIdx iova 3)
                ms.prevPgtable with
            | none => (s, some .eexist, ms)
            | some s => (s, none, ms)
          else mapFresh s pgsize iova paddr ms
        | none => mapFresh s pgsize iova paddr ms
      match step with
      | (s, some e, ms) => (s, some e, mapped, ms)
      | (s, none, ms) =>
        mapBySizeLoop d prot fuel s (iova + pgsize) (paddr + pgsize) (size - pgsize) (mapped + pgsize) ms
where
  mapFresh (s : State) (pgsize iova paddr : Nat) (ms : MapState) : State × Option Errno × MapState :=
    match lpaeMap d iova paddr (4 - d.startLevel) s pgsize 1 prot d.pgd none (some ms) with
    | (s, .error e, ms') => (s, some e, ms'.getD ms)
    | (s, .ok _, ms') => (s, none, ms'.getD ms)

/-- `arm_lpae_map_by_pgsize`. -/
def mapByPgsize (d : Data) (s : State) (iova paddr size mapped : Nat) (prot : Prot) (ms : MapState) :
    State × Option Errno × Nat × MapState :=
  let minPagesz := 2 ^ ffs d.cfg.pgsizeBitmap
  if (iova ||| paddr ||| size) % minPagesz ≠ 0 then (s, some .einval, mapped, ms)
  else if iaext d (iova + size - 1) ≠ 0 ∨ (paddr + size - 1) / 2 ^ d.cfg.oas ≠ 0 then
    (s, some .erange, mapped, ms)
  else if !(prot.read || prot.write) then (s, none, mapped + size, ms)
  else mapBySizeLoop d (protToPte d prot) size s iova paddr size mapped ms

/-- A piece of a scatterlist: `sg_phys` and `length`. -/
structure Piece where
  phys : Nat
  length : Nat

/-- The loop of `qcom_arm_lpae_map_sg` over the pieces it still looks at. `start` and `len` are the
run of adjacent pieces that is not mapped yet. -/
def mapSgLoop (d : Data) (iova : Nat) (prot : Prot) : List Piece → State → (start len mapped : Nat) →
    MapState → State × Option Errno × Nat
  | [], s, _, _, mapped, _ => (s, none, mapped)
  | p :: rest, s, start, len, mapped, ms =>
    if len ≠ 0 ∧ p.phys ≠ start + len then
      match mapByPgsize d s (iova + mapped) start len mapped prot ms with
      | (s, some e, mapped, _) => (s, some e, mapped)
      | (s, none, mapped, ms) => mapSgLoop d iova prot rest s p.phys p.length mapped ms
    else if len ≠ 0 then mapSgLoop d iova prot rest s start (len + p.length) mapped ms
    else mapSgLoop d iova prot rest s p.phys p.length mapped ms

/-- `qcom_arm_lpae_map_sg`: the last piece is looked at once more, to map the run it ends. -/
def mapSg (d : Data) (s : State) (iova : Nat) (sg : List Piece) (prot : Prot) : State × Option Errno × Nat :=
  mapSgLoop d iova prot (sg ++ sg.getLast?.toList) s 0 0 0 MapState.zero

/-! ### Unmapping -/

/-- `arm_lpae_cont_unmap`: no entry of the groups from the one of `iova` on keeps the hint. -/
def contUnmap (d : Data) (s : State) (iova lvl ptep num : Nat) : State :=
  if d.cfg.contigHint then
    let numCont := findNumCont d lvl
    let contIova := iova / (d.blockSize lvl * numCont) * (d.blockSize lvl * numCont)
    let start := ptep - d.lvlIdx iova lvl + d.lvlIdx contIova lvl
    let num := (num + numCont - 1) / numCont * numCont
    { s with mem := fun a => if start ≤ a ∧ a < start + num then s.mem a &&& ~~~pteCont else s.mem a }
  else s

/-- The callers look at the hint of one entry only. -/
def dropHint (d : Data) (s : State) (iova lvl ptep num : Nat) : State :=
  if s.mem ptep &&& pteCont ≠ 0 then contUnmap d s iova lvl ptep num else s

/-- One round of the loop over the entries of `size`: the entry at `ptep` goes, with the tables of
the `r` levels below it. -/
def unmapEntry (d : Data) (iova lvl pgcount r : Nat) (s : State) (ptep : Nat) : State :=
  let pte := s.mem ptep
  let s := writePte (dropHint d s iova lvl ptep pgcount) ptep 0
  if iopteLeaf d pte lvl then s else freePgtable d r s (iopteDeref d pte)

/-- The loop, with the number of entries it cleared. -/
def unmapLoop (d : Data) (iova lvl pgcount r : Nat) : (num : Nat) → State → (ptep : Nat) → State × Nat
  | 0, s, _ => (s, 0)
  | num + 1, s, ptep =>
    if s.mem ptep = 0 then (s, 0)
    else
      let (s, i) := unmapLoop d iova lvl pgcount r num (unmapEntry d iova lvl pgcount r s ptep) (ptep + 1)
      (s, i + 1)

/-- `__arm_lpae_unmap` where the size matches the level. -/
def unmapBlocks (d : Data) (iova : Nat) (s : State) (size pgcount lvl r tbl : Nat) : State × U64 :=
  let idx := d.lvlIdx iova lvl
  let numCont := checkAndSetNumCont d size lvl
  let num := min (toInt32 (numCont * pgcount)) (d.ptesPerTable - idx)
  let (s, i) := unmapLoop d iova lvl pgcount r num.toNat s (tbl + idx)
  (s, BitVec.ofNat 64 (i * (size / numCont)))

/-- `__arm_lpae_unmap` above a last-level table. -/
def unmapLastLevel (d : Data) (iova : Nat) (s : State) (size pgcount ptep : Nat) : State × U64 :=
  let table := iopteDeref d (s.mem ptep)
  let idx := d.lvlIdx iova 3
  let entry := table + idx
  let numCont := checkAndSetNumCont d size 3
  let num := min (toInt32 (numCont * pgcount)) (d.ptesPerTable - idx)
  let s := dropHint d s iova 3 entry (BitVec.ofInt 64 num).toNat
  let s := setPte s entry 0 num.toNat
  let s := writePte s ptep (iopteTblcntSub (s.mem ptep) num)
  let s := if iopteTblcnt (s.mem ptep) = 0 then freePgtable d 1 (writePte s ptep 0) table else s
  (s, BitVec.ofInt 64 (num * (size / numCont : Nat)))

/-- Entry `i` of the table that takes the place of a block is not among the `num` unmapped ones
from `start` on. -/
def splitKeeps (start num : Int) (i : Nat) : Bool := !(decide (start ≤ i) && decide ((i : Int) < start + num))

/-- The loop that fills that table. -/
def splitFill (d : Data) (s : State) (blkPte : U64) (lvl tablep : Nat) (start num : Int) : State :=
  { s with mem := fun a =>
      if tablep ≤ a ∧ a < tablep + d.ptesPerTable ∧ splitKeeps start num (a - tablep) then
        leafPte d (iopteProt blkPte) lvl ((iopteToPaddr d blkPte).toNat + (a - tablep) * d.blockSize lvl)
      else s.mem a }

/-- `arm_lpae_split_blk_unmap` at level `4 - r`; `next` is the walk at that level. -/
def splitBlkUnmap (d : Data) (iova r : Nat) (s : State) (size : Nat) (blkPte : U64) (ptep pgcount : Nat)
    (next : State → Nat → Nat → Nat → State × U64) : State × U64 :=
  if r = 0 then (s, 0)
  else
    let lvl := 4 - r
    match allocPages d s with
    | (s, none) => (s, 0)
    | (s, some tablep) =>
      let idx := d.lvlIdx iova lvl
      let start : Int := if size = d.blockSize lvl then idx else -1
      let num : Int := if size = d.blockSize lvl then min (toInt32 pgcount) (d.ptesPerTable - idx) else 0
      let childCnt := (List.range d.ptesPerTable).countP (splitKeeps start num)
      let s := splitFill d s blkPte lvl tablep start num
      let (s, old) := installTable d s tablep ptep blkPte childCnt
      if old ≠ blkPte then
        let s := freePages s [tablep]
        if iopteType old ≠ pteTypeTable then (s, 0) else next s size pgcount (iopteDeref d old)
      else if 0 ≤ start then (s, BitVec.ofInt 64 (num * size))
      else next s size pgcount tablep

/-- `__arm_lpae_unmap` with `r` levels left, so at level `4 - r`. -/
def lpaeUnmap (d : Data) (iova : Nat) : (r : Nat) → State → (size pgcount tbl : Nat) → State × U64
  | 0, s, _, _, _ => (s, 0)
  | r + 1, s, size, pgcount, tbl =>
    let lvl := 3 - r
    let ptep := tbl + d.lvlIdx iova lvl
    let pte := s.mem ptep
    if pte = 0 then (s, 0)
    else if size = d.blockSize lvl ∨ size = findNumCont d lvl * d.blockSize lvl then
      unmapBlocks d iova s size pgcount lvl r tbl
    else if lvl = 2 ∧ !iopteLeaf d pte lvl then unmapLastLevel d iova s size pgcount ptep
    else if iopteLeaf d pte lvl then
      let numCont := checkAndSetNumCont d size (lvl + 1)
      let s := dropHint d s iova lvl ptep (findNumCont d lvl)
      splitBlkUnmap d iova r s (size / numCont) pte ptep (numCont * pgcount) (lpaeUnmap d iova r)
    else lpaeUnmap d iova r s size pgcount (iopteDeref d pte)

/-- `qcom_arm_lpae_unmap_pages`. -/
def unmapPages (d : Data) (s : State) (iova pgsize pgcount : Nat) : State × U64 :=
  if badPgsize d pgsize pgcount then (s, 0)
  else if iaext d iova ≠ 0 then (s, 0)
  else lpaeUnmap d iova (4 - d.startLevel) s pgsize pgcount d.pgd

/-! ### Translation -/

/-- The loop of `arm_lpae_iova_to_phys`: the entry it stops at, with its level. -/
def walk (d : Data) (mem : Nat → U64) (iova : Nat) : (r tbl : Nat) → Option (Nat × U64)
  | 0, _ => none
  | r + 1, tbl =>
    let pte := mem (tbl + d.lvlIdx iova (3 - r))
    if pte = 0 then none
    else if iopteLeaf d pte (3 - r) then some (3 - r, pte)
    else walk d mem iova r (iopteDeref d pte)

/-- `arm_lpae_iova_to_phys`. -/
def iovaToPhys (d : Data) (s : State) (iova : Nat) : U64 :=
  match walk d s.mem iova (4 - d.startLevel) d.pgd with
  | none => 0
  | some (lvl, pte) => iopteToPaddr d pte ||| BitVec.ofNat 64 (iova % d.blockSize lvl)

/-! ### Allocation -/

/-- `arm_64_lpae_alloc_pgtable_s1`, without the register values. -/
def arm64LpaeAllocPgtableS1 (cfg : Cfg) (fmt : Fmt) (s : State) : Option (Data × State) :=
  if cfg.otherQuirks then none
  else
    match allocPgtable cfg fmt with
    | none => none
    | some d =>
      if d.cfg.coherentWalk ∧ (d.cfg.quirkArmOuterWbwa ∨ d.cfg.quirkQcomUseLlcNwa) then none
      else if d.cfg.oas ∈ [32, 36, 40, 42, 44, 48, 52] then
        match allocPages d s with
        | (_, none) => none
        | (s, some pgd) => some ({ d with pgd }, s)
      else none

/-- `arm_32_lpae_alloc_pgtable_s1`. -/
def arm32LpaeAllocPgtableS1 (cfg : Cfg) (fmt : Fmt) (s : State) : Option (Data × State) :=
  if 32 < cfg.ias ∨ 40 < cfg.oas then none
  else arm64LpaeAllocPgtableS1 { cfg with pgsizeBitmap := cfg.pgsizeBitmap &&& (sz4K ||| sz2M ||| sz1G) }
    fmt s

/-- A new stage-1 table, in one of the two formats. -/
def allocPgtableS1 (cfg : Cfg) (fmt : Fmt) (s : State) : Option (Data × State) :=
  match fmt with
  | .qcomArm64LpaeS1 => arm64LpaeAllocPgtableS1 cfg fmt s
  | .arm32LpaeS1 => arm32LpaeAllocPgtableS1 cfg fmt s
  | _ => none

end Sm8850.Iopt
