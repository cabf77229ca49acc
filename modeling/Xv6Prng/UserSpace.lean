import Xv6Prng.Library.ByteWords
import Xv6Prng.Library.Halting
import Xv6Prng.Library.Runs

/-!
# Page tables and user memory: `vm.c`

A page is named by its physical page number and a virtual address by its page number. A page
directory is a value: the page that holds it and, for each entry that is present, the page
table with its page. An entry of a table is a page number and twelve flags. The pages that a
directory owns are its own, those of its tables and those that its user entries map.

Every page has its contents; what a page holds while it is a page table is in the table and not
in `mem`. The ghost `freed` lists the arguments of `kfree`.

`kalloc` returns the head of the free list. It fails when the list is empty, and also when
`faults` says so: other processors may hold the last pages at that moment.

Sizes are at most `KERNBASE` where these functions use them in a loop, so that the addresses of
the loops do not wrap around and are natural numbers here. The address of `copyout` is one of 32
bits, and it does wrap.
-/

namespace Xv6Prng.UserSpace

open ByteWords Halting Function

abbrev PageNo := ℕ

abbrev PGSIZE : ℕ := 4096
abbrev NPDENTRIES : ℕ := 1024
abbrev NPTENTRIES : ℕ := 1024

/-- The page numbers of `KERNBASE`, `EXTMEM`, `PHYSTOP` and `DEVSPACE`. -/
abbrev KERNBASE : ℕ := 0x80000
abbrev EXTMEM : ℕ := 0x100
abbrev PHYSTOP : ℕ := 0xe000
abbrev DEVSPACE : ℕ := 0xfe000

/-- Where the linker has put the kernel: the physical pages of `data` and of the first page
after `end`. -/
structure Layout where
  data : ℕ
  first : ℕ
  data_gt : EXTMEM < data
  data_lt : data < PHYSTOP

abbrev Flags := BitVec 12

abbrev PTE_P : Flags := 1
abbrev PTE_W : Flags := 2
abbrev PTE_U : Flags := 4

/-- `PTE_ADDR`, as a page number, and `PTE_FLAGS`. -/
structure Pte where
  frame : PageNo
  flags : Flags
  deriving DecidableEq

namespace Pte

def zero : Pte := ⟨0, 0⟩

def Present (e : Pte) : Prop := e.flags &&& PTE_P ≠ 0

def User (e : Pte) : Prop := e.flags &&& PTE_U ≠ 0

instance (e : Pte) : Decidable e.Present := inferInstanceAs (Decidable (_ ≠ _))
instance (e : Pte) : Decidable e.User := inferInstanceAs (Decidable (_ ≠ _))

end Pte

structure Table where
  page : PageNo
  pte : ℕ → Pte

structure PgDir where
  page : PageNo
  pde : ℕ → Option Table

abbrev Page := Fin PGSIZE → Byte

structure Pool where
  freelist : List PageNo
  faults : List Bool

structure Machine where
  pool : Pool
  mem : PageNo → Page
  freed : List PageNo

def emptyMachine : Machine := ⟨⟨[], []⟩, fun _ _ => 0, []⟩

/-- A panic, or a null pointer taken for the address of an entry. -/
inductive Fault
  | panic (msg : String)
  | nullPte
  deriving DecidableEq

abbrev M := EStateM Fault Machine

def kalloc : M (Option PageNo) := do
  let s ← get
  if s.pool.faults.headD false then do
    set { s with pool := { s.pool with faults := s.pool.faults.tail } }
    pure none
  else do
    set { s with pool := ⟨s.pool.freelist.tail, s.pool.faults.tail⟩ }
    pure s.pool.freelist.head?

def linkWord : List PageNo → Word
  | [] => 0
  | q :: _ => BitVec.ofNat 32 ((KERNBASE + q) * PGSIZE)

/-- A page on the free list: ones, and the link to the next page. -/
def freePage (freelist : List PageNo) : Page := fun i =>
  if i.val < 4 then byteOf (linkWord freelist) i else 1

def Machine.kfreed (s : Machine) (p : PageNo) : Machine where
  pool := { s.pool with freelist := p :: s.pool.freelist }
  mem := update s.mem p (freePage s.pool.freelist)
  freed := s.freed ++ [p]

def kfree (L : Layout) (p : PageNo) : M Unit :=
  if p < L.first ∨ p ≥ PHYSTOP then throw (.panic "kfree")
  else modify fun s => s.kfreed p

def setPage (p : PageNo) (x : Page) : M Unit :=
  modify fun s => { s with mem := update s.mem p x }

namespace PgDir

variable (d : PgDir)

def pte (v : ℕ) : Pte :=
  match d.pde (v / NPTENTRIES) with
  | none => .zero
  | some t => t.pte (v % NPTENTRIES)

def setPde (i : ℕ) (t : Table) : PgDir := { d with pde := update d.pde i (some t) }

def setPte (v : ℕ) (e : Pte) : PgDir :=
  match d.pde (v / NPTENTRIES) with
  | none => d
  | some t => d.setPde (v / NPTENTRIES) { t with pte := update t.pte (v % NPTENTRIES) e }

def HasTable (v : ℕ) : Prop := (d.pde (v / NPTENTRIES)).isSome

end PgDir

/-- `walkpgdir`: the directory, with a table for the address if there is or can be one; nothing
stands for the null pointer. -/
def walkpgdir (d : PgDir) (v : ℕ) (alloc : Bool) : M (Option PgDir) :=
  match d.pde (v / NPTENTRIES) with
  | some _ => pure (some d)
  | none =>
    if alloc then do
      match ← kalloc with
      | none => pure none
      | some p => pure (some (d.setPde (v / NPTENTRIES) ⟨p, fun _ => .zero⟩))
    else pure none

/-- `mappages` for `n` pages from `v` on; the directory keeps what was done before a failure. -/
def mappages : ℕ → ℕ → PageNo → Flags → PgDir → M (PgDir × Bool)
  | 0, _, _, _, d => pure (d, true)
  | n + 1, v, pa, perm, d => do
    match ← walkpgdir d v true with
    | none => pure (d, false)
    | some d =>
      if (d.pte v).Present then throw (.panic "remap")
      else mappages n (v + 1) (pa + 1) perm (d.setPte v ⟨pa, perm ||| PTE_P⟩)

/-- The kernel's mappings: first virtual page, number of pages, first physical page, flags. -/
def kmap (L : Layout) : List (ℕ × ℕ × PageNo × Flags) :=
  [(KERNBASE, EXTMEM, 0, PTE_W), (KERNBASE + EXTMEM, L.data - EXTMEM, EXTMEM, 0),
    (KERNBASE + L.data, PHYSTOP - L.data, L.data, PTE_W),
    (DEVSPACE, 2 ^ 20 - DEVSPACE, DEVSPACE, PTE_W)]

def mapKernel : List (ℕ × ℕ × PageNo × Flags) → PgDir → M (Option PgDir)
  | [], d => pure (some d)
  | k :: ks, d => do
    let r ← mappages k.2.1 k.1 k.2.2.1 k.2.2.2 d
    if r.2 then mapKernel ks r.1 else pure none

def setupkvm (L : Layout) : M (Option PgDir) := do
  match ← kalloc with
  | none => pure none
  | some p => mapKernel (kmap L) ⟨p, fun _ => none⟩

/-- `PGROUNDUP(sz) / PGSIZE` -/
def pages (sz : ℕ) : ℕ := (sz + PGSIZE - 1) / PGSIZE

/-- The loop of `deallocuvm` from page `a` to page `e`. Where there is no table it goes on a
table's length further, not at the next table. -/
def deallocLoop (L : Layout) (e : ℕ) : ℕ → ℕ → PgDir → M PgDir
  | 0, _, d => pure d
  | fuel + 1, a, d =>
    if a < e then
      match d.pde (a / NPTENTRIES) with
      | none => deallocLoop L e fuel (a + NPTENTRIES) d
      | some _ =>
        if (d.pte a).Present then
          if (d.pte a).frame = 0 then throw (.panic "kfree")
          else do
            kfree L (d.pte a).frame
            deallocLoop L e fuel (a + 1) (d.setPte a .zero)
        else deallocLoop L e fuel (a + 1) d
    else pure d

def deallocuvm (L : Layout) (d : PgDir) (oldsz newsz : ℕ) : M (PgDir × ℕ) :=
  if newsz ≥ oldsz then pure (d, oldsz)
  else do
    let d ← deallocLoop L (pages oldsz) (pages oldsz) (pages newsz) d
    pure (d, newsz)

def freeTables (L : Layout) (d : PgDir) : List ℕ → M Unit
  | [] => pure ()
  | i :: is => do
    match d.pde i with
    | none => freeTables L d is
    | some t => do
      kfree L t.page
      freeTables L d is

def freevm (L : Layout) (d : PgDir) : M Unit := do
  let r ← deallocuvm L d (KERNBASE * PGSIZE) 0
  freeTables L r.1 (List.range NPDENTRIES)
  kfree L d.page

def allocLoop (L : Layout) (oldsz newsz : ℕ) : ℕ → ℕ → PgDir → M (PgDir × ℕ)
  | 0, _, d => pure (d, newsz)
  | n + 1, a, d => do
    match ← kalloc with
    | none => do
      let r ← deallocuvm L d newsz oldsz
      pure (r.1, 0)
    | some mem => do
      setPage mem fun _ => 0
      let r ← mappages 1 a mem (PTE_W ||| PTE_U) d
      if r.2 then allocLoop L oldsz newsz n (a + 1) r.1
      else do
        let r ← deallocuvm L r.1 newsz oldsz
        kfree L mem
        pure (r.1, 0)

@[irreducible] def allocuvm (L : Layout) (d : PgDir) (oldsz newsz : ℕ) : M (PgDir × ℕ) :=
  if newsz ≥ KERNBASE * PGSIZE then pure (d, 0)
  else if newsz < oldsz then pure (d, oldsz)
  else allocLoop L oldsz newsz (pages newsz - pages oldsz) (pages oldsz) d

def copyLoop (L : Layout) (parent : PgDir) : ℕ → ℕ → PgDir → M (Option PgDir)
  | 0, _, d => pure (some d)
  | n + 1, i, d =>
    match parent.pde (i / NPTENTRIES) with
    | none => throw (.panic "copyuvm: pte should exist")
    | some _ =>
      if (parent.pte i).Present then do
        match ← kalloc with
        | none => do
          freevm L d
          pure none
        | some mem => do
          let s ← get
          setPage mem (s.mem (parent.pte i).frame)
          let r ← mappages 1 i mem (parent.pte i).flags d
          if r.2 then copyLoop L parent n (i + 1) r.1
          else do
            freevm L r.1
            pure none
      else throw (.panic "copyuvm: page not present")

@[irreducible] def copyuvm (L : Layout) (parent : PgDir) (sz : ℕ) : M (Option PgDir) := do
  match ← setupkvm L with
  | none => pure none
  | some d => copyLoop L parent (pages sz) 0 d

/-- `uva2ka` of the page `v`; the pointer that it dereferences may be null. -/
def uva2ka (d : PgDir) (v : ℕ) : M (Option PageNo) := do
  match ← walkpgdir d v false with
  | none => throw .nullPte
  | some d =>
    if ¬ (d.pte v).Present then pure none
    else if ¬ (d.pte v).User then pure none
    else pure (some (d.pte v).frame)

def Page.write (x : Page) (off : ℕ) (bytes : List Byte) : Page := fun i =>
  if h : off ≤ i.val ∧ i.val - off < bytes.length then bytes.get ⟨i.val - off, h.2⟩ else x i

def memmove (p : PageNo) (off : ℕ) (bytes : List Byte) : M Unit :=
  modify fun s => { s with mem := update s.mem p ((s.mem p).write off bytes) }

/-- The loop of `copyout`; `bytes` is what is left of the buffer. -/
def copyoutLoop (d : PgDir) : ℕ → Word → List Byte → M Word
  | 0, _, _ => pure 0
  | fuel + 1, va, bytes =>
    if bytes.length > 0 then do
      let va0 := va.toNat / PGSIZE
      match ← uva2ka d va0 with
      | none => pure (-1)
      | some pa0 => do
        let n := min (PGSIZE - va.toNat % PGSIZE) bytes.length
        memmove pa0 (va.toNat % PGSIZE) (bytes.take n)
        copyoutLoop d fuel (BitVec.ofNat 32 ((va0 + 1) * PGSIZE)) (bytes.drop n)
    else pure 0

def copyout (d : PgDir) (va : Word) (bytes : List Byte) : M Word :=
  copyoutLoop d bytes.length va bytes

/-- What `growproc` uses of a `struct proc`. -/
structure Proc where
  pgdir : PgDir
  sz : Word

def growproc (L : Layout) (p : Proc) (n : Word) : M (Word × Proc) :=
  let newsz := (p.sz + n).toNat
  if n.toInt > 0 then do
    let r ← allocuvm L p.pgdir p.sz.toNat newsz
    if r.2 = 0 then pure (-1, { p with pgdir := r.1 })
    else pure (0, ⟨r.1, BitVec.ofNat 32 r.2⟩)
  else if n.toInt < 0 then do
    let r ← deallocuvm L p.pgdir p.sz.toNat newsz
    if r.2 = 0 then pure (-1, { p with pgdir := r.1 })
    else pure (0, ⟨r.1, BitVec.ofNat 32 r.2⟩)
  else pure (0, p)

namespace PgDir

variable {d : PgDir} {v u i : ℕ} {e : Pte} {p : PageNo}

theorem pte_of_not_hasTable (h : ¬ d.HasTable v) : d.pte v = .zero := by
  rw [HasTable, Option.not_isSome_iff_eq_none] at h
  rw [pte, h]

theorem hasTable_of_present (h : (d.pte v).Present) : d.HasTable v := by
  by_contra hno
  rw [pte_of_not_hasTable hno] at h
  exact absurd h (by decide)

theorem hasTable_of_div_eq (h : d.HasTable v) (hdiv : u / NPTENTRIES = v / NPTENTRIES) :
    d.HasTable u := by
  rw [HasTable, hdiv]
  exact h

theorem pde_setPte (h : i ≠ v / NPTENTRIES) : (d.setPte v e).pde i = d.pde i := by
  rw [setPte]
  split
  · rfl
  · exact update_of_ne h _ _

theorem isSome_pde_setPte : ((d.setPte v e).pde i).isSome ↔ (d.pde i).isSome := by
  by_cases hi : i = v / NPTENTRIES
  · subst hi
    rw [setPte]
    split
    · exact Iff.rfl
    · rename_i t ht
      simp [setPde, ht]
  · rw [pde_setPte hi]

theorem pte_setPte (h : d.HasTable v) : (d.setPte v e).pte = update d.pte v e := by
  obtain ⟨t, ht⟩ := Option.isSome_iff_exists.mp h
  funext u
  by_cases hu : u = v
  · subst hu
    simp [pte, setPte, setPde, ht]
  · rw [update_of_ne hu]
    by_cases hi : u / NPTENTRIES = v / NPTENTRIES
    · have hj : u % NPTENTRIES ≠ v % NPTENTRIES := by
        simp only [NPTENTRIES] at hi ⊢
        omega
      simp [pte, setPte, setPde, ht, hi, hj]
    · rw [pte, pde_setPte hi, pte]

theorem pte_setPde (hnone : d.pde i = none) : (d.setPde i ⟨p, fun _ => .zero⟩).pte = d.pte := by
  funext u
  by_cases hu : u / NPTENTRIES = i
  · simp [pte, setPde, hu, hnone]
  · simp [pte, setPde, hu]

theorem hasTable_setPde {t : Table} :
    (d.setPde i t).HasTable u ↔ u / NPTENTRIES = i ∨ d.HasTable u := by
  by_cases hu : u / NPTENTRIES = i
  · simp [HasTable, setPde, hu]
  · simp [HasTable, setPde, hu]

end PgDir

def Pte.mapped (e : Pte) : Option PageNo := if e.Present then some e.frame else none

@[simp] theorem mapped_zero : Pte.zero.mapped = none := by decide

theorem mapped_of_present {e : Pte} (h : e.Present) : e.mapped = some e.frame := if_pos h

theorem present_or (pa : PageNo) (perm : Flags) : Pte.Present ⟨pa, perm ||| PTE_P⟩ := by
  intro h
  have hbit := congrArg (fun x : Flags => x.getLsbD 0) h
  simp at hbit

def onePage : Option PageNo → Multiset PageNo
  | none => 0
  | some p => {p}

namespace PgDir

def tablePage (d : PgDir) (i : ℕ) : Option PageNo := (d.pde i).map Table.page

/-- The directory's own page, its tables and what its user part maps. The sum over all user
pages is not to be evaluated. -/
@[irreducible] def owned (d : PgDir) : Multiset PageNo :=
  {d.page} + ∑ i ∈ Finset.range NPDENTRIES, onePage (d.tablePage i) +
    ∑ v ∈ Finset.range KERNBASE, onePage (d.pte v).mapped

theorem owned_eq (d : PgDir) : d.owned =
    {d.page} + ∑ i ∈ Finset.range NPDENTRIES, onePage (d.tablePage i) +
      ∑ v ∈ Finset.range KERNBASE, onePage (d.pte v).mapped := by
  unfold owned
  rfl

variable {d : PgDir} {v i : ℕ} {e : Pte} {p : PageNo}

theorem owned_setPde (hi : i < NPDENTRIES) (hnone : d.pde i = none) :
    (d.setPde i ⟨p, fun _ => .zero⟩).owned = d.owned + {p} := by
  have htables : (d.setPde i ⟨p, fun _ => .zero⟩).tablePage = update d.tablePage i (some p) := by
    funext j
    by_cases hj : j = i
    · simp [tablePage, setPde, hj]
    · simp [tablePage, setPde, hj]
  have hsum := Runs.sum_update_add onePage d.tablePage (Finset.mem_range.mpr hi) (some p)
  have hold : onePage (d.tablePage i) = 0 := by simp [tablePage, hnone, onePage]
  rw [hold, add_zero] at hsum
  rw [owned_eq, owned_eq, htables, hsum, pte_setPde hnone, onePage]
  simp only [setPde]
  abel

theorem tablePage_setPte : (d.setPte v e).tablePage = d.tablePage := by
  funext i
  by_cases hi : i = v / NPTENTRIES
  · subst hi
    rw [setPte]
    split
    · rfl
    · rename_i t ht
      simp [tablePage, setPde, ht]
  · rw [tablePage, pde_setPte hi, tablePage]

theorem page_setPte : (d.setPte v e).page = d.page := by
  rw [setPte]
  split <;> rfl

theorem owned_setPte (h : d.HasTable v) (hv : v < KERNBASE) :
    (d.setPte v e).owned + onePage (d.pte v).mapped = d.owned + onePage e.mapped := by
  have hsum := Runs.sum_update_add (fun e => onePage e.mapped) d.pte (Finset.mem_range.mpr hv) e
  rw [owned_eq, owned_eq, tablePage_setPte, page_setPte, pte_setPte h, add_assoc, hsum, ← add_assoc]

end PgDir

def Pool.free (s : Pool) : Multiset PageNo := s.freelist

theorem coe_cons (p : PageNo) (l : List PageNo) :
    ((p :: l : List PageNo) : Multiset PageNo) = ↑l + {p} := by
  rw [← Multiset.cons_coe, ← Multiset.singleton_add, add_comm]

def Freeable (L : Layout) (p : PageNo) : Prop := L.first ≤ p ∧ p < PHYSTOP ∧ p ≠ 0

theorem kfree_run {L : Layout} {p : PageNo} (h : Freeable L p) (s : Machine) :
    (kfree L p).run s = .ok () (s.kfreed p) := by
  have hok : ¬ (p < L.first ∨ p ≥ PHYSTOP) := not_or.mpr ⟨not_lt.mpr h.1, not_le.mpr h.2.1⟩
  rw [kfree, if_neg hok]
  rfl

theorem kalloc_returns (s : Machine) :
    Returns kalloc s fun r s' => s'.mem = s.mem ∧ s'.freed = s.freed ∧
      (r = none ∧ s'.pool.freelist = s.pool.freelist ∨
        ∃ p, r = some p ∧ s.pool.freelist = p :: s'.pool.freelist) := by
  refine returns_get_bind ?_
  split_ifs
  · exact ⟨_, _, rfl, rfl, rfl, Or.inl ⟨rfl, rfl⟩⟩
  · refine ⟨_, _, rfl, rfl, rfl, ?_⟩
    cases s.pool.freelist with
    | nil => exact Or.inl ⟨rfl, rfl⟩
    | cons p free => exact Or.inr ⟨p, rfl, rfl⟩

structure Takes (s s' : Machine) : Prop where
  mem : s'.mem = s.mem
  freed : s'.freed = s.freed
  freelist : s'.pool.freelist <:+ s.pool.freelist

theorem Takes.refl (s : Machine) : Takes s s := ⟨rfl, rfl, List.suffix_refl _⟩

theorem Takes.trans {s s' s'' : Machine} (h : Takes s s') (h' : Takes s' s'') : Takes s s'' :=
  ⟨h'.mem.trans h.mem, h'.freed.trans h.freed, h'.freelist.trans h.freelist⟩

theorem walkpgdir_returns (d : PgDir) (v : ℕ) (s : Machine) :
    Returns (walkpgdir d v true) s fun r s' => Takes s s' ∧
      (r = none → s'.pool.freelist = s.pool.freelist) ∧
      ∀ d', r = some d' → d'.pte = d.pte ∧ d'.HasTable v ∧
        (v < 2 ^ 20 → s'.pool.free + d'.owned = s.pool.free + d.owned) := by
  rw [walkpgdir]
  split
  · rename_i t ht
    refine returns_pure ⟨.refl s, by simp, fun d' hd => ?_⟩
    cases hd
    exact ⟨rfl, by simp [PgDir.HasTable, ht], fun _ => rfl⟩
  · rename_i hnone
    rw [if_pos rfl]
    refine (kalloc_returns s).bind fun r s₁ hr => ?_
    obtain ⟨hmem, hfreed, ⟨rfl, hlist⟩ | ⟨p, rfl, hlist⟩⟩ := hr
    · exact returns_pure ⟨⟨hmem, hfreed, hlist ▸ List.suffix_refl _⟩, fun _ => hlist, by simp⟩
    · refine returns_pure ⟨⟨hmem, hfreed, ?_⟩, by simp, fun d' hd => ?_⟩
      · rw [hlist]
        exact List.suffix_cons p _
      · cases hd
        refine ⟨PgDir.pte_setPde hnone, PgDir.hasTable_setPde.mpr (Or.inl rfl), fun hv => ?_⟩
        have hi : v / NPTENTRIES < NPDENTRIES := by
          simp only [NPTENTRIES, NPDENTRIES]
          omega
        rw [PgDir.owned_setPde hi hnone, Pool.free, Pool.free, hlist, coe_cons]
        abel

theorem mappages_returns {d : PgDir} {v : ℕ} (hv : v < KERNBASE) (hnot : ¬ (d.pte v).Present)
    (pa : PageNo) (perm : Flags) (s : Machine) :
    Returns (mappages 1 v pa perm d) s fun r s' => Takes s s' ∧
      (r.2 = false → r.1 = d ∧ s'.pool.freelist = s.pool.freelist) ∧
      (r.2 = true → r.1.pte = update d.pte v ⟨pa, perm ||| PTE_P⟩ ∧
        s'.pool.free + r.1.owned = s.pool.free + d.owned + {pa}) := by
  rw [mappages]
  refine (walkpgdir_returns d v s).bind fun r s₁ hr => ?_
  obtain ⟨htakes, hnone, hsome⟩ := hr
  cases r with
  | none => exact returns_pure ⟨htakes, fun _ => ⟨rfl, hnone rfl⟩, by simp⟩
  | some d' =>
    obtain ⟨hpte, htable, hfree⟩ := hsome d' rfl
    dsimp only
    rw [if_neg (by rwa [hpte]), mappages]
    refine returns_pure ⟨htakes, by simp, fun _ => ⟨?_, ?_⟩⟩
    · rw [PgDir.pte_setPte htable, hpte]
    · have howned := PgDir.owned_setPte (e := ⟨pa, perm ||| PTE_P⟩) htable hv
      rw [hpte, Pte.mapped, if_neg hnot, mapped_of_present (present_or pa perm)] at howned
      rw [onePage, add_zero, onePage] at howned
      rw [howned, ← add_assoc, hfree (hv.trans (by decide))]

theorem pages_le {sz : ℕ} (h : sz ≤ KERNBASE * PGSIZE) : pages sz ≤ KERNBASE := by
  simp only [pages, KERNBASE, PGSIZE] at h ⊢
  omega

theorem pages_mono {a b : ℕ} (h : a ≤ b) : pages a ≤ pages b :=
  Nat.div_le_div_right (by omega)

end Xv6Prng.UserSpace
