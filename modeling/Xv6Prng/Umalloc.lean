import Xv6Prng.Library.Extents
import Xv6Prng.Library.Runs

/-!
# The user heap of `umalloc.c`

A process calls `malloc` and `free` in any order and writes into the memory that it has been
given. Memory is an array of words; a `Header` is two of them, and sizes count headers. Memory
ends below `KERNBASE`, so that no address and no sum of sizes overflows; the arithmetic on the
size of a request is done modulo `2 ^ 32` as it is in C.

`sbrk` fails or returns a region that starts some words above all the memory handed out before.
The ghosts `regions` and `handed` list what it has returned and the blocks that are handed out,
headers included, and `asked` what the last call of `malloc` has asked it for. The loops carry
fuel, and a call that would not return makes the state `none`.
-/

namespace Xv6Prng.Umalloc

open Runs Extent Function

abbrev UNIT : ℕ := 2

abbrev HEADER : ℕ := 8

abbrev Memory := ℕ → ℕ

namespace Memory

variable (m : Memory)

def ptr (p : ℕ) : ℕ := m p

def size (p : ℕ) : ℕ := m (p + 1)

def setPtr (p v : ℕ) : Memory := Function.update m p v

def setSize (p v : ℕ) : Memory := Function.update m (p + 1) v

end Memory

structure Heap where
  mem : Memory
  freep : ℕ
  top : ℕ
  regions : List Extent
  handed : List Extent
  asked : List ℤ

/-- The loop at the head of `free`: the place of `bp` in the free list. -/
def place (m : Memory) (bp : ℕ) : ℕ → ℕ → Option ℕ
  | 0, _ => none
  | fuel + 1, p =>
    if bp > p ∧ bp < m.ptr p then some p
    else if p ≥ m.ptr p ∧ (bp > p ∨ bp < m.ptr p) then some p
    else place m bp fuel (m.ptr p)

/-- Both `if`s of `free`: block `p` is followed by `q`, or swallows it if they touch. -/
def attach (m : Memory) (p q : ℕ) : Memory :=
  if p + UNIT * m.size p = q then
    let m := m.setSize p (m.size p + m.size q)
    m.setPtr p (m.ptr q)
  else m.setPtr p q

namespace Heap

variable (s : Heap)

def free (ap : ℕ) : Option Heap :=
  let bp := ap - UNIT
  (place s.mem bp (s.top + 1) s.freep).map fun p =>
    { s with
      mem := attach (attach s.mem bp (s.mem.ptr p)) p bp
      freep := p
      handed := s.handed.filter fun e => e.start ≠ bp }

/-- The `int` that `morecore` passes to `sbrk`. -/
def sbrkArg (nu : ℕ) : ℤ :=
  let nu := if nu < 4096 then 4096 else nu
  (BitVec.ofNat 32 (nu * HEADER)).toInt

def ask (nu : ℕ) : Heap := { s with asked := s.asked ++ [sbrkArg nu] }

/-- The pointer that `morecore` returns; `gap` is the answer of `sbrk`. -/
def morecore (nu : ℕ) (gap : Option ℕ) : Option (ℕ × Heap) :=
  let s := s.ask nu
  let nu := if nu < 4096 then 4096 else nu
  match gap with
  | none => some (0, s)
  | some gap =>
    let hp := s.top + gap
    let len := nu * HEADER % 2 ^ 32 / 4
    let s : Heap :=
      { s with
        mem := s.mem.setSize hp nu
        top := hp + len
        regions := s.regions ++ [⟨hp, len⟩] }
    (s.free (hp + UNIT)).map fun s => (s.freep, s)

/-- The block at `p`, or its tail, is handed out; `prevp` comes before it in the list. -/
def take (nunits prevp p : ℕ) : ℕ × Heap :=
  if s.mem.size p = nunits then
    (p + UNIT,
      { s with
        mem := s.mem.setPtr prevp (s.mem.ptr p)
        freep := prevp
        handed := s.handed ++ [⟨p, UNIT * nunits⟩] })
  else
    let m := s.mem.setSize p (s.mem.size p - nunits)
    let q := p + UNIT * m.size p
    (q + UNIT,
      { s with
        mem := m.setSize q nunits
        freep := prevp
        handed := s.handed ++ [⟨q, UNIT * nunits⟩] })

def mallocLoop (nunits : ℕ) : ℕ → List (Option ℕ) → Heap → ℕ → ℕ → Option (ℕ × Heap)
  | 0, _, _, _, _ => none
  | fuel + 1, gaps, s, prevp, p =>
    if s.mem.size p ≥ nunits then some (s.take nunits prevp p)
    else if p = s.freep then
      match s.morecore nunits (gaps.headD none) with
      | none => none
      | some (r, s) =>
        if r = 0 then some (0, s) else mallocLoop nunits fuel gaps.tail s r (s.mem.ptr r)
    else mallocLoop nunits fuel gaps s p (s.mem.ptr p)

/-- The first call makes the free list, with nothing but `base` on it. -/
def init (base : ℕ) : Heap :=
  let s := { s with asked := [] }
  if s.freep = 0 then
    { s with mem := (s.mem.setPtr base base).setSize base 0, freep := base }
  else s

def units (nbytes : ℕ) : ℕ := (nbytes + HEADER - 1) % 2 ^ 32 / HEADER + 1

def malloc (base nbytes : ℕ) (gaps : List (Option ℕ)) : Option (ℕ × Heap) :=
  let s := s.init base
  mallocLoop (units nbytes) (2 * (s.top + 2)) gaps s s.freep (s.mem.ptr s.freep)

end Heap

/-- `gaps` are the answers of `sbrk` during the call, each the distance of the new region from
the end of the last one; `scribble` is what the process itself writes. -/
inductive Action
  | malloc (nbytes : ℕ) (gaps : List (Option ℕ))
  | free (ap : ℕ)
  | scribble (m : Memory)

def act (base : ℕ) (s : Option Heap) : Action → Option Heap
  | .malloc nbytes gaps => s.bind fun s => (s.malloc base nbytes gaps).map Prod.snd
  | .free ap => s.bind fun s => s.free ap
  | .scribble m => s.map fun s => { s with mem := m }

/-- A request is a positive `int`, a pointer is freed that is handed out, and the process
writes only to what it has been given. -/
def Allowed : Option Heap → Action → Prop
  | _, .malloc nbytes _ => nbytes < 2 ^ 31
  | s, .free ap => ∃ h ∈ s, ∃ e ∈ h.handed, ap = e.start + UNIT
  | s, .scribble m => ∀ h ∈ s, ∀ x, (∀ e ∈ h.handed, ¬ (e.start + UNIT ≤ x ∧ x < e.finish)) →
      m x = h.mem x

/-- The free list: from `base` through the free blocks in the order of their addresses, none
touching the next, and back to `base`. -/
structure Ring (base : ℕ) (m : Memory) (free : List Extent) : Prop where
  chain : List.IsChain (fun p q => m.ptr p = q)
    (((⟨base, 0⟩ :: free).map start) ++ [base])
  sizes : ∀ e ∈ (⟨base, 0⟩ : Extent) :: free, UNIT * m.size e.start = e.len
  separated : Separated free
  positive : ∀ e ∈ free, 0 < e.len
  above : ∀ e ∈ free, base + UNIT ≤ e.start

/-- The state of the heap: the free blocks and those handed out make up exactly what `sbrk` has
returned, each word of it once. -/
structure Sound (base : ℕ) (s : Heap) (free : List Extent) : Prop where
  ring : Ring base s.mem free
  freep : s.freep ∈ ((⟨base, 0⟩ : Extent) :: free).map start
  sizes : ∀ e ∈ s.handed, UNIT * s.mem.size e.start = e.len ∧ 0 < e.len
  disjoint : s.handed.Pairwise fun e f => Disjoint e.words f.words
  handed_free : Disjoint (covered s.handed) (covered free)
  covered_eq : covered free ∪ covered s.handed = covered s.regions
  total_eq : total free + total s.handed = total s.regions
  inside : ∀ e ∈ s.regions, base + UNIT ≤ e.start ∧ e.finish ≤ s.top
  room : base + UNIT ≤ s.top

variable {m m' : Memory} {p q x bp base z : ℕ} {e f : Extent} {l free : List Extent}

@[simp] theorem Memory.size_setSize (m : Memory) (p v : ℕ) : (m.setSize p v).size p = v :=
  update_self ..

theorem attach_frame (hp : x ≠ p) (hp' : x ≠ p + 1) : attach m p q x = m x := by
  rw [attach]
  split_ifs
  · simp [Memory.setPtr, Memory.setSize, hp, hp']
  · simp [Memory.setPtr, hp]

theorem attach_of_touch (h : p + UNIT * m.size p = q) :
    (attach m p q).ptr p = m.ptr q ∧ (attach m p q).size p = m.size p + m.size q := by
  have hq : q ≠ p + 1 := by
    simp only [UNIT] at h
    omega
  rw [attach, if_pos h]
  simp [Memory.setPtr, Memory.setSize, Memory.ptr, Memory.size, hq]

theorem attach_of_not_touch (h : p + UNIT * m.size p ≠ q) :
    (attach m p q).ptr p = q ∧ (attach m p q).size p = m.size p := by
  rw [attach, if_neg h]
  simp [Memory.setPtr, Memory.ptr, Memory.size]

def Apart (e f : Extent) : Prop := e.start + UNIT ≤ f.start ∨ f.start + UNIT ≤ e.start

theorem chain_congr (h : List.IsChain (fun p q => m.ptr p = q) (l.map start ++ [z]))
    (heq : ∀ f ∈ l, m' f.start = m f.start) :
    List.IsChain (fun p q => m'.ptr p = q) (l.map start ++ [z]) := by
  induction l with
  | nil => exact List.isChain_singleton _
  | cons f l ih =>
    have hrest := ih (List.IsChain.tail h) fun g hg => heq g (List.mem_cons_of_mem f hg)
    cases l with
    | nil =>
      simp only [List.map_cons, List.map_nil, List.cons_append, List.nil_append,
        List.isChain_cons_cons, List.isChain_singleton, and_true] at h ⊢
      exact (heq f List.mem_cons_self).trans h
    | cons g l =>
      simp only [List.map_cons, List.cons_append, List.isChain_cons_cons] at h hrest ⊢
      exact ⟨(heq f List.mem_cons_self).trans h.1, hrest⟩

theorem attach_join (hchain : List.IsChain (fun p q => m.ptr p = q) (l.map start ++ [z]))
    (hsizes : ∀ f ∈ l, UNIT * m.size f.start = f.len) (he : UNIT * m.size e.start = e.len)
    (hapart : ∀ f ∈ l, Apart e f) (hq : (l.map start ++ [z]).head? = some q)
    (hstop : l = [] → e.finish ≠ z) :
    List.IsChain (fun x y => (attach m e.start q).ptr x = y) ((e.join l).map start ++ [z]) ∧
      ∀ f ∈ e.join l, UNIT * (attach m e.start q).size f.start = f.len := by
  have hframe : ∀ f ∈ l, attach m e.start q f.start = m f.start ∧
      attach m e.start q (f.start + 1) = m (f.start + 1) := by
    intro f hf
    have := hapart f hf
    simp only [Apart, UNIT] at this
    exact ⟨attach_frame (by omega) (by omega), attach_frame (by omega) (by omega)⟩
  have hrest := chain_congr hchain fun f hf => (hframe f hf).1
  have hkept : ∀ f ∈ l, UNIT * (attach m e.start q).size f.start = f.len := fun f hf => by
    rw [Memory.size, (hframe f hf).2]
    exact hsizes f hf
  cases l with
  | nil =>
    obtain rfl : z = q := by simpa using hq
    have hno : e.start + UNIT * m.size e.start ≠ z := by
      rw [he]
      exact hstop rfl
    obtain ⟨hptr, hsize⟩ := attach_of_not_touch hno
    refine ⟨by simpa [Extent.join] using hptr, fun f hf => ?_⟩
    obtain rfl : f = e := by simpa [Extent.join] using hf
    rw [hsize, he]
  | cons g l =>
    obtain rfl : g.start = q := by simpa using hq
    rw [Extent.join]
    split_ifs with htouch
    · rw [finish, ← he] at htouch
      obtain ⟨hptr, hsize⟩ := attach_of_touch htouch
      refine ⟨?_, fun f hf => ?_⟩
      · -- The block takes over the pointer of the one that it swallows.
        cases l with
        | nil =>
          simp only [List.map_cons, List.map_nil, List.cons_append, List.nil_append,
            List.isChain_cons_cons, List.isChain_singleton, and_true] at hchain ⊢
          exact hptr.trans hchain
        | cons h l =>
          simp only [List.map_cons, List.cons_append, List.isChain_cons_cons] at hchain hrest ⊢
          exact ⟨hptr.trans hchain.1, hrest.2⟩
      · rcases List.mem_cons.mp hf with rfl | hf
        · rw [hsize, Nat.mul_add, he, hsizes g List.mem_cons_self]
        · exact hkept f (List.mem_cons_of_mem g hf)
    · rw [finish, ← he] at htouch
      obtain ⟨hptr, hsize⟩ := attach_of_not_touch htouch
      refine ⟨?_, fun f hf => ?_⟩
      · simp only [List.map_cons, List.cons_append, List.isChain_cons_cons] at hrest ⊢
        exact ⟨hptr, hrest⟩
      · rcases List.mem_cons.mp hf with rfl | hf
        · rw [hsize, he]
        · exact hkept f hf

variable {fuel : ℕ}

namespace Ring

variable {pre post : List Extent} {e' : Extent}

section Ring

variable (h : Ring base m free)
include h

theorem congr (heq : ∀ e ∈ (⟨base, 0⟩ : Extent) :: free,
      m' e.start = m e.start ∧ m' (e.start + 1) = m (e.start + 1)) : Ring base m' free where
  chain := chain_congr h.chain fun e he => (heq e he).1
  sizes e he := by
    rw [Memory.size, (heq e he).2]
    exact h.sizes e he
  __ := h

theorem unit_le_len (he : e ∈ free) : UNIT ≤ e.len := by
  have hpos := h.positive e he
  have hsize := h.sizes e (List.mem_cons_of_mem _ he)
  simp only [UNIT] at hsize ⊢
  omega

theorem sorted : Separated (⟨base, 0⟩ :: free) := by
  refine List.pairwise_cons.mpr ⟨fun e he => ?_, h.separated⟩
  have habove := h.above e he
  simp only [finish, UNIT] at habove ⊢
  omega

theorem spaced : ((⟨base, 0⟩ : Extent) :: free).Pairwise fun e f => e.start + UNIT ≤ f.start := by
  refine List.pairwise_cons.mpr ⟨h.above, ?_⟩
  refine h.separated.imp_of_mem fun {e f} he _ hef => ?_
  have hlen := h.unit_le_len he
  simp only [finish] at hef
  omega

theorem chain_split (hN : ⟨base, 0⟩ :: free = pre ++ e :: post) :
    List.IsChain (fun p q => m.ptr p = q) (pre.map start ++ [e.start]) ∧
      List.IsChain (fun p q => m.ptr p = q) (e.start :: (post.map start ++ [base])) := by
  have hchain := h.chain
  rw [hN, List.map_append, List.map_cons, List.append_assoc, List.cons_append] at hchain
  exact List.isChain_split.mp hchain

end Ring

theorem mem_of_split (hN : ⟨base, 0⟩ :: free = pre ++ e :: post) (hf : f ∈ post) : f ∈ free := by
  cases pre with
  | nil =>
    obtain ⟨-, rfl⟩ := List.cons_eq_cons.mp hN
    exact hf
  | cons b pre =>
    obtain ⟨-, rfl⟩ := List.cons_eq_cons.mp hN
    exact List.mem_append_right pre (List.mem_cons_of_mem e hf)

theorem head_ptr (h : Ring base m free) (hN : ⟨base, 0⟩ :: free = pre ++ e :: post) :
    (post.map start ++ [base]).head? = some (m.ptr e.start) := by
  have hsuffix := (h.chain_split hN).2
  cases post with
  | nil =>
    simp only [List.map_nil, List.nil_append, List.isChain_cons_cons, List.isChain_singleton,
      and_true] at hsuffix
    simp [hsuffix]
  | cons f post =>
    simp only [List.map_cons, List.cons_append, List.isChain_cons_cons] at hsuffix
    simp [hsuffix.1]

structure Fits (m : Memory) (base : ℕ) (e e' : Extent) (post : List Extent) : Prop where
  size : UNIT * m.size e'.start = e'.len
  positive : 0 < e'.len
  left : e.finish ≤ e'.start
  above : base + UNIT ≤ e'.start
  right : ∀ f ∈ post, e'.finish ≤ f.start

theorem Fits.unit_le_len (h : Fits m base e e' post) : UNIT ≤ e'.len := by
  have hsize := h.size
  have hpos := h.positive
  simp only [UNIT] at hsize ⊢
  omega

theorem Fits.start_le (h : Fits m base e e' post) (hf : f ∈ e'.join post) :
    e'.start ≤ f.start := by
  rcases start_mem_join hf with hf | hf
  · exact hf.ge
  · have hright := h.right f hf
    simp only [finish] at hright
    omega

theorem Fits.header_le (hfit : Fits m base e e' post) (h : Ring base m free)
    (he : e ∈ (⟨base, 0⟩ : Extent) :: free) : e.start + UNIT ≤ e'.start := by
  rcases List.mem_cons.mp he with rfl | hfree
  · exact hfit.above
  · have hlen := h.unit_le_len hfree
    have hleft := hfit.left
    simp only [finish] at hleft
    omega

theorem chain_insert (h : Ring base m free) (hN : ⟨base, 0⟩ :: free = pre ++ e :: post)
    (hfit : Fits m base e e' post) :
    let m' := attach (attach m e'.start (m.ptr e.start)) e.start e'.start
    List.IsChain (fun p q => m'.ptr p = q) ((pre ++ e.join (e'.join post)).map start ++ [base]) ∧
      ∀ f ∈ pre ++ e.join (e'.join post), UNIT * m'.size f.start = f.len := by
  have hspaced := h.spaced
  rw [hN] at hspaced
  obtain ⟨-, -, hcross⟩ := List.pairwise_append.mp hspaced
  obtain ⟨hpre, hsuffix⟩ := h.chain_split hN
  have hmem : ∀ f ∈ pre ++ e :: post, f ∈ (⟨base, 0⟩ : Extent) :: free := fun f hf => hN ▸ hf
  have hheader := hfit.header_le h (hmem e (by simp))
  have hlen := hfit.unit_le_len
  -- The new block is attached to what follows it,
  obtain ⟨hchain₁, hsizes₁⟩ := attach_join (e := e') (l := post) (z := base)
    (q := m.ptr e.start) (List.IsChain.tail hsuffix)
    (fun f hf => h.sizes f (hmem f (by simp [hf]))) hfit.size
    (fun f hf => Or.inl (by have := hfit.right f hf; simp only [finish] at this; omega))
    (h.head_ptr hN) (fun _ => by have := hfit.above; have := hfit.positive; simp only [finish]; omega)
  have hframe₁ : ∀ x, x < e'.start → attach m e'.start (m.ptr e.start) x = m x := fun x hx =>
    attach_frame (by omega) (by omega)
  -- and the one before it to the result.
  have hq : ((e'.join post).map start ++ [base]).head? = some e'.start := by
    obtain ⟨g, l, hjoin, hg, -⟩ := join_eq_cons e' post
    rw [hjoin]
    exact congrArg some hg
  have hsize : UNIT * (attach m e'.start (m.ptr e.start)).size e.start = e.len := by
    rw [Memory.size, hframe₁ _ (by simp only [UNIT] at hheader; omega)]
    exact h.sizes e (hmem e (by simp))
  have hne : e'.join post = [] → e.finish ≠ base := by
    obtain ⟨g, l, hjoin, -⟩ := join_eq_cons e' post
    simp [hjoin]
  obtain ⟨hchain₂, hsizes₂⟩ := attach_join (e := e) hchain₁ hsizes₁ hsize
    (fun f hf => Or.inl (hheader.trans (hfit.start_le hf))) hq hne
  have hframe₂ : ∀ x, x < e.start →
      attach (attach m e'.start (m.ptr e.start)) e.start e'.start x = m x := fun x hx =>
    (attach_frame (by omega) (by omega)).trans (hframe₁ x (by simp only [UNIT] at hheader; omega))
  have hbefore : ∀ f ∈ pre, f.start + 1 < e.start := fun f hf => by
    have := hcross f hf e List.mem_cons_self
    simp only [UNIT] at this
    omega
  refine ⟨?_, fun f hf => ?_⟩
  · obtain ⟨g, l, hjoin, hg, -⟩ := join_eq_cons e (e'.join post)
    rw [hjoin] at hchain₂ ⊢
    rw [List.map_append, List.map_cons, List.append_assoc, List.cons_append, List.isChain_split]
    refine ⟨?_, by simpa using hchain₂⟩
    rw [hg]
    exact chain_congr hpre fun f hf => hframe₂ _ (by have := hbefore f hf; omega)
  · rcases List.mem_append.mp hf with hf | hf
    · rw [Memory.size, hframe₂ _ (hbefore f hf)]
      exact h.sizes f (hmem f (by simp [hf]))
    · exact hsizes₂ f hf

theorem insert (h : Ring base m free) (hN : ⟨base, 0⟩ :: free = pre ++ e :: post)
    (hfit : Fits m base e e' post) :
    ∃ free', ⟨base, 0⟩ :: free' = pre ++ e.join (e'.join post) ∧
      Ring base (attach (attach m e'.start (m.ptr e.start)) e.start e'.start) free' := by
  obtain ⟨hchain, hsizes⟩ := h.chain_insert hN hfit
  have hpositive : ∀ f ∈ post, 0 < f.len := fun f hf => h.positive f (mem_of_split hN hf)
  have hsorted : Separated (pre ++ e.join (e'.join post)) := by
    have hold := h.sorted
    rw [hN] at hold
    exact hold.insert hpositive hfit.positive hfit.left hfit.right
  have hjoined : ∀ f ∈ e'.join post, 0 < f.len ∧ base + UNIT ≤ f.start := fun f hf =>
    ⟨len_pos_join hfit.positive hpositive hf, hfit.above.trans (hfit.start_le hf)⟩
  cases pre with
  | nil =>
    -- The new block is the first one: it does not touch `base`.
    obtain ⟨rfl, rfl⟩ := List.cons_eq_cons.mp hN
    have hbase : (⟨base, 0⟩ : Extent).join (e'.join free) = ⟨base, 0⟩ :: e'.join free := by
      obtain ⟨g, l, hjoin, hg, -⟩ := join_eq_cons e' free
      have habove := hfit.above
      rw [hjoin, Extent.join, if_neg]
      simp only [finish, hg, UNIT] at habove ⊢
      omega
    rw [List.nil_append, hbase] at hchain hsizes hsorted ⊢
    exact ⟨e'.join free, rfl, hchain, hsizes, hsorted.tail, fun f hf => (hjoined f hf).1,
      fun f hf => (hjoined f hf).2⟩
  | cons b pre =>
    obtain ⟨rfl, rfl⟩ := List.cons_eq_cons.mp hN
    have he : e ∈ pre ++ e :: post := by simp
    refine ⟨pre ++ e.join (e'.join post), rfl, hchain, hsizes, hsorted.tail, ?_, ?_⟩
    · intro f hf
      rcases List.mem_append.mp hf with hf | hf
      · exact h.positive f (by simp [hf])
      · exact len_pos_join (h.positive e he) (fun g hg => (hjoined g hg).1) hf
    · intro f hf
      rcases List.mem_append.mp hf with hf | hf
      · exact h.above f (by simp [hf])
      · rcases start_mem_join hf with hf | hf
        · rw [hf]
          exact h.above e he
        · exact (hjoined f hf).2

def EndsAt (m : Memory) (bp p : ℕ) : Prop :=
  bp > p ∧ bp < m.ptr p ∨ p ≥ m.ptr p ∧ (bp > p ∨ bp < m.ptr p)

theorem place_of_endsAt (h : EndsAt m bp p) : place m bp (fuel + 1) p = some p := by
  rw [place]
  split_ifs with h₁ h₂
  · rfl
  · rfl
  · exact absurd h (not_or.mpr ⟨h₁, h₂⟩)

theorem place_of_not_endsAt (h : ¬ EndsAt m bp p) :
    place m bp (fuel + 1) p = place m bp fuel (m.ptr p) := by
  obtain ⟨h₁, h₂⟩ := not_or.mp h
  rw [place, if_neg h₁, if_neg h₂]

theorem place_of_chain {g : Extent}
    (hchain : List.IsChain (fun p q => m.ptr p = q) ((g :: l).map start ++ [z]))
    (hex : ∃ e ∈ g :: l, EndsAt m bp e.start) (hfuel : (g :: l).length ≤ fuel) :
    ∃ e ∈ g :: l, EndsAt m bp e.start ∧ place m bp fuel g.start = some e.start := by
  induction l generalizing g fuel with
  | nil =>
    obtain ⟨e, he, hend⟩ := hex
    obtain rfl : e = g := by simpa using he
    obtain ⟨fuel, rfl⟩ : ∃ k, fuel = k + 1 := ⟨fuel - 1, by simp at hfuel; omega⟩
    exact ⟨e, he, hend, place_of_endsAt hend⟩
  | cons f l ih =>
    obtain ⟨fuel, rfl⟩ : ∃ k, fuel = k + 1 := ⟨fuel - 1, by simp at hfuel; omega⟩
    by_cases hg : EndsAt m bp g.start
    · exact ⟨g, List.mem_cons_self, hg, place_of_endsAt hg⟩
    · simp only [List.map_cons, List.cons_append, List.isChain_cons_cons] at hchain
      obtain ⟨e, he, hend, hplace⟩ := ih (g := f) (by simpa using hchain.2)
        (by
          obtain ⟨e, he, hend⟩ := hex
          rcases List.mem_cons.mp he with rfl | he
          · exact absurd hend hg
          · exact ⟨e, he, hend⟩)
        (Nat.le_of_succ_le_succ hfuel)
      exact ⟨e, List.mem_cons_of_mem g he, hend, by rw [place_of_not_endsAt hg, hchain.1, hplace]⟩

theorem rotate (h : Ring base m free) (hp : p ∈ ((⟨base, 0⟩ : Extent) :: free).map start) :
    ∃ g l, g.start = p ∧ (g :: l).Perm (⟨base, 0⟩ :: free) ∧
      List.IsChain (fun p q => m.ptr p = q) ((g :: l).map start ++ [p]) := by
  obtain ⟨g, hg, rfl⟩ := List.mem_map.mp hp
  obtain ⟨pre, post, hN⟩ := List.append_of_mem hg
  obtain ⟨hpre, hsuffix⟩ := h.chain_split hN
  refine ⟨g, post ++ pre, rfl, ?_, ?_⟩
  · rw [hN, ← List.cons_append]
    exact List.perm_append_comm
  · cases pre with
    | nil =>
      obtain ⟨rfl, -⟩ := List.cons_eq_cons.mp hN
      simpa using hsuffix
    | cons b pre =>
      obtain ⟨rfl, -⟩ := List.cons_eq_cons.mp hN
      have hjoined : List.IsChain (fun p q => m.ptr p = q)
          ((g :: post).map start ++ base :: (pre.map start ++ [g.start])) :=
        List.isChain_split.mpr ⟨hsuffix, hpre⟩
      simpa using hjoined

theorem exists_place (h : Ring base m free) (hp : p ∈ ((⟨base, 0⟩ : Extent) :: free).map start)
    (hbp : base < bp) (hne : ∀ e ∈ free, e.start ≠ bp) (hfuel : free.length < fuel) :
    ∃ pre e post, ⟨base, 0⟩ :: free = pre ++ e :: post ∧ e.start < bp ∧
      (∀ f ∈ post, bp < f.start) ∧ place m bp fuel p = some e.start := by
  have hsplit : ∀ pre e post, ⟨base, 0⟩ :: free = pre ++ e :: post →
      (EndsAt m bp e.start ↔ e.start < bp ∧ ∀ f ∈ post, bp < f.start) := by
    intro pre e post hN
    have hptr := h.head_ptr hN
    have hsorted := h.sorted
    rw [hN] at hsorted
    have hrest : Separated (e :: post) := (List.pairwise_append.mp hsorted).2.1
    cases post with
    | nil =>
      -- The last block points back to `base`, below all the others.
      have hbase : m.ptr e.start = base := by simpa using hptr.symm
      have hge : base ≤ e.start := by
        rcases List.mem_cons.mp (show e ∈ (⟨base, 0⟩ : Extent) :: free by simp [hN]) with rfl | he
        · exact le_rfl
        · exact le_of_add_le_left (h.above e he)
      simp only [EndsAt, hbase, List.not_mem_nil, false_imp_iff, implies_true, and_true]
      omega
    | cons f post =>
      have hnext : m.ptr e.start = f.start := by simpa using hptr.symm
      have hlt : e.start < f.start := hrest.start_lt List.mem_cons_self
      have hall : (∀ g ∈ f :: post, bp < g.start) ↔ bp < f.start := by
        refine ⟨fun hall => hall f List.mem_cons_self, fun hf g hg => ?_⟩
        rcases List.mem_cons.mp hg with rfl | hg
        · exact hf
        · exact hf.trans (Separated.start_lt (List.pairwise_cons.mp hrest).2 hg)
      rw [hall, EndsAt, hnext]
      omega
  obtain ⟨pre, e, post, hN, he, hpost⟩ := h.sorted.exists_split hbp hne
  obtain ⟨g, l, rfl, hperm, hchain⟩ := h.rotate hp
  have hend : EndsAt m bp e.start := (hsplit pre e post hN).mpr ⟨he, hpost⟩
  have hlen : (g :: l).length ≤ fuel := by
    rw [hperm.length_eq]
    exact hfuel
  obtain ⟨e', he', hend', hplace⟩ := place_of_chain hchain
    ⟨e, hperm.mem_iff.mpr (by simp [hN]), hend⟩ hlen
  obtain ⟨pre', post', hN'⟩ := List.append_of_mem (hperm.mem_iff.mp he')
  obtain ⟨hlt, hgt⟩ := (hsplit pre' e' post' hN').mp hend'
  exact ⟨pre', e', post', hN', hlt, hgt, hplace⟩

theorem covered_base (base : ℕ) (l : List Extent) : covered (⟨base, 0⟩ :: l) = covered l := by
  have hnone : (⟨base, 0⟩ : Extent).words = ∅ := by simp [words, finish]
  rw [covered_cons, hnone, Set.empty_union]

theorem header_mem (h : Ring base m free) (he : e ∈ (⟨base, 0⟩ : Extent) :: free)
    (hx : x = e.start ∨ x = e.start + 1) : x = base ∨ x = base + 1 ∨ x ∈ covered free := by
  rcases List.mem_cons.mp he with rfl | he
  · exact hx.imp_right Or.inl
  · have hlen := h.unit_le_len he
    refine Or.inr (Or.inr (words_subset_covered he ?_))
    simp only [mem_words, finish, UNIT] at hlen ⊢
    omega

theorem header_ne (h : Ring base m free) (he : e ∈ (⟨base, 0⟩ : Extent) :: free) (hb : x ≠ base)
    (hb' : x ≠ base + 1) (hx : x ∉ covered free) : x ≠ e.start ∧ x ≠ e.start + 1 :=
  not_or.mp fun hxe => (h.header_mem he hxe).elim hb fun hxe => hxe.elim hb' hx

theorem fits_of_disjoint (h : Ring base m free) (hN : ⟨base, 0⟩ :: free = pre ++ e :: post)
    (hsize : UNIT * m.size e'.start = e'.len) (hpos : 0 < e'.len)
    (habove : base + UNIT ≤ e'.start) (hdisjoint : Disjoint e'.words (covered free))
    (hlt : e.start < e'.start) (hgt : ∀ f ∈ post, e'.start < f.start) :
    Fits m base e e' post := by
  have hfree : ∀ f ∈ pre ++ e :: post, 0 < f.len → ∀ y ∈ f.words, y ∉ e'.words := by
    intro f hf hlen y hy hy'
    refine Set.disjoint_left.mp hdisjoint hy' ?_
    rw [← hN] at hf
    rcases List.mem_cons.mp hf with rfl | hf
    · exact absurd hlen (Nat.lt_irrefl 0)
    · exact words_subset_covered hf hy
  refine ⟨hsize, hpos, ?_, habove, fun f hf => ?_⟩
  · by_contra hover
    rw [not_le] at hover
    refine hfree e (by simp) ?_ e'.start ⟨hlt.le, hover⟩ ⟨le_rfl, ?_⟩
    · simp only [finish] at hover
      omega
    · simp only [finish]
      omega
  · have hstart := hgt f hf
    by_contra hover
    rw [not_le] at hover
    have hlen := h.positive f (mem_of_split hN hf)
    refine hfree f (by simp [hf]) hlen f.start ⟨le_rfl, ?_⟩ ⟨hstart.le, hover⟩
    simp only [finish]
    omega

end Ring

structure Released (base : ℕ) (s s' : Heap) (free free' : List Extent) (e : Extent) : Prop where
  ring : Ring base s'.mem free'
  freep : s'.freep ∈ ((⟨base, 0⟩ : Extent) :: free').map start
  covered_eq : covered free' = covered free ∪ e.words
  total_eq : total free' = total free + e.len
  top_eq : s'.top = s.top
  regions_eq : s'.regions = s.regions
  handed_eq : s'.handed = s.handed.filter fun f => f.start ≠ e.start
  frame : ∀ x, x ≠ base → x ≠ base + 1 → x ∉ covered free → x ∉ e.words → s'.mem x = s.mem x
  large : ∃ f ∈ free', e.len ≤ f.len
  length_le : free'.length ≤ free.length + 1

theorem exists_released {s : Heap} (h : Ring base s.mem free)
    (hp : s.freep ∈ ((⟨base, 0⟩ : Extent) :: free).map start)
    (hsize : UNIT * s.mem.size e.start = e.len) (hpos : 0 < e.len)
    (habove : base + UNIT ≤ e.start) (hdisjoint : Disjoint e.words (covered free))
    (hfuel : free.length ≤ s.top) :
    ∃ s' free', s.free (e.start + UNIT) = some s' ∧ Released base s s' free free' e := by
  have hne : ∀ f ∈ free, f.start ≠ e.start := by
    intro f hf heq
    have hlen := h.positive f hf
    refine Set.disjoint_left.mp hdisjoint (show f.start ∈ e.words from ?_)
      (words_subset_covered hf ?_)
    · simp only [mem_words, finish]
      omega
    · simp only [mem_words, finish]
      omega
  obtain ⟨pre, v, post, hN, hlt, hgt, hplace⟩ := h.exists_place hp
    (by simp only [UNIT] at habove; omega) hne (Nat.lt_succ_of_le hfuel)
  have hfit := h.fits_of_disjoint hN hsize hpos habove hdisjoint hlt hgt
  obtain ⟨free', hN', hring⟩ := h.insert hN hfit
  have hcovered : covered free' = covered free ∪ e.words := by
    rw [← Ring.covered_base base free', hN', ← Ring.covered_base base free, hN]
    simp only [covered_append, covered_join, covered_cons]
    ext x
    simp only [Set.mem_union]
    tauto
  have htotal : total free' = total free + e.len := by
    have hnew := congrArg total hN'
    have hold := congrArg total hN
    simp only [total_append, total_join, total_cons] at hnew hold
    omega
  refine ⟨_, free', by rw [Heap.free, Nat.add_sub_cancel, hplace]; rfl, ?_⟩
  refine ⟨hring, ?_, hcovered, htotal, rfl, rfl, rfl, ?_, ?_, ?_⟩
  · obtain ⟨g, l, hjoin, hg, -⟩ := join_eq_cons v (e.join post)
    rw [hN', hjoin]
    simp [hg]
  · intro x hb hb' hx hxe
    have hv := h.header_ne (e := v) (by simp [hN]) hb hb' hx
    have he : x ≠ e.start ∧ x ≠ e.start + 1 := by
      have hlen := hfit.unit_le_len
      simp only [mem_words, finish, UNIT] at hxe hlen
      omega
    exact (attach_frame hv.1 hv.2).trans (attach_frame he.1 he.2)
  · obtain ⟨f, hf, hef⟩ := exists_len_le_join (e := e) (l := post) List.mem_cons_self
    obtain ⟨g, hg, hfg⟩ := exists_len_le_join (e := v) (List.mem_cons_of_mem v hf)
    have hmem : g ∈ (⟨base, 0⟩ : Extent) :: free' := by simp [hN', hg]
    rcases List.mem_cons.mp hmem with rfl | hmem
    · simp only at hfg
      omega
    · exact ⟨g, hmem, hef.trans hfg⟩
  · have hnew := congrArg List.length hN'
    have hold := congrArg List.length hN
    have hjoin := length_join_le v (e.join post)
    have hjoin' := length_join_le e post
    simp only [List.length_append, List.length_cons] at hnew hold
    omega

section Take

variable {pre post : List Extent} {v c : Extent} {nunits : ℕ}

theorem Ring.exists_replace {rest rest' : List Extent} (h : Ring base m free)
    (hN : ⟨base, 0⟩ :: free = pre ++ v :: rest)
    (hchain : List.IsChain (fun p q => m'.ptr p = q) ((pre ++ v :: rest').map start ++ [base]))
    (hsizes : ∀ f ∈ pre ++ v :: rest', UNIT * m'.size f.start = f.len)
    (hsorted : Separated (pre ++ v :: rest'))
    (hrest : ∀ f ∈ rest', 0 < f.len ∧ base + UNIT ≤ f.start) :
    ∃ free', ⟨base, 0⟩ :: free' = pre ++ v :: rest' ∧ Ring base m' free' := by
  cases pre with
  | nil =>
    obtain ⟨rfl, rfl⟩ := List.cons_eq_cons.mp hN
    exact ⟨rest', rfl, hchain, hsizes, hsorted.tail, fun f hf => (hrest f hf).1,
      fun f hf => (hrest f hf).2⟩
  | cons b pre =>
    obtain ⟨rfl, rfl⟩ := List.cons_eq_cons.mp hN
    have hold : ∀ f ∈ pre ++ v :: rest', f ∈ pre ++ v :: rest ∨ f ∈ rest' := by
      intro f hf
      simp only [List.mem_append, List.mem_cons] at hf ⊢
      tauto
    refine ⟨pre ++ v :: rest', rfl, hchain, hsizes, hsorted.tail, fun f hf => ?_, fun f hf => ?_⟩
    · rcases hold f hf with hf | hf
      · exact h.positive f hf
      · exact (hrest f hf).1
    · rcases hold f hf with hf | hf
      · exact h.above f hf
      · exact (hrest f hf).2

theorem Ring.around (h : Ring base m free) (hN : ⟨base, 0⟩ :: free = pre ++ v :: c :: post) :
    (∀ f ∈ pre, f.start + UNIT ≤ v.start) ∧ v.start + UNIT ≤ c.start ∧
      (∀ f ∈ post, c.finish < f.start) ∧ ∀ f ∈ c :: post, f ∈ free := by
  have hspaced := h.spaced
  have hsorted := h.sorted
  rw [hN] at hspaced hsorted
  obtain ⟨-, hs, hcross⟩ := List.pairwise_append.mp hspaced
  obtain ⟨-, hs', -⟩ := List.pairwise_append.mp hsorted
  exact ⟨fun f hf => hcross f hf v List.mem_cons_self,
    (List.pairwise_cons.mp hs).1 c List.mem_cons_self,
    (List.pairwise_cons.mp (List.pairwise_cons.mp hs').2).1, fun f hf => mem_of_split hN hf⟩

theorem Ring.unlink (h : Ring base m free)
    (hN : ⟨base, 0⟩ :: free = pre ++ v :: c :: post) :
    ∃ free', ⟨base, 0⟩ :: free' = pre ++ v :: post ∧
      Ring base (m.setPtr v.start (m.ptr c.start)) free' := by
  obtain ⟨hpre, hvc, hpost, hfree⟩ := h.around hN
  have hframe : ∀ x, x ≠ v.start → m.setPtr v.start (m.ptr c.start) x = m x := fun x hx =>
    update_of_ne hx _ _
  have hlt : ∀ f ∈ post, v.start < f.start := fun f hf => by
    have := hpost f hf
    simp only [finish, UNIT] at this hvc
    omega
  have hsub : (pre ++ v :: post).Sublist (⟨base, 0⟩ :: free) := by
    rw [hN]
    simp
  obtain ⟨hbefore, hafter⟩ := h.chain_split hN
  refine h.exists_replace hN ?_ ?_ (h.sorted.sublist hsub) ?_
  · rw [List.map_append, List.map_cons, List.append_assoc, List.cons_append, List.isChain_split]
    refine ⟨chain_congr hbefore fun f hf => hframe _ ?_, ?_⟩
    · have := hpre f hf
      simp only [UNIT] at this
      omega
    · have htail := List.IsChain.tail (List.IsChain.tail hafter)
      have hN' : ⟨base, 0⟩ :: free = (pre ++ [v]) ++ c :: post := by rw [hN, List.append_cons]
      have hhead := h.head_ptr hN'
      refine List.isChain_cons.mpr ⟨fun y hy => ?_, chain_congr htail fun f hf => ?_⟩
      · rw [hhead] at hy
        exact (update_self ..).trans (Option.some.inj hy)
      · exact hframe _ (hlt f hf).ne'
  · intro f hf
    rw [Memory.size, hframe]
    · exact h.sizes f (hsub.subset hf)
    · rw [List.mem_append, List.mem_cons] at hf
      rcases hf with hf | rfl | hf
      · have := hpre f hf
        simp only [UNIT] at this
        omega
      · omega
      · have := hlt f hf
        omega
  · intro f hf
    have hf := hfree f (List.mem_cons_of_mem c hf)
    exact ⟨h.positive f hf, h.above f hf⟩

theorem Ring.cut (h : Ring base m free) (hN : ⟨base, 0⟩ :: free = pre ++ v :: c :: post)
    (hpos : 0 < nunits) (hlt : nunits < m.size c.start) :
    ∃ free', ⟨base, 0⟩ :: free' =
        pre ++ v :: ⟨c.start, c.len - UNIT * nunits⟩ :: post ∧
      Ring base ((m.setSize c.start (m.size c.start - nunits)).setSize
        (c.start + UNIT * (m.size c.start - nunits)) nunits) free' := by
  obtain ⟨hpre, hvc, hpost, hfree⟩ := h.around hN
  have hlen : UNIT * m.size c.start = c.len := h.sizes c (List.mem_cons_of_mem _ (hfree c (by simp)))
  simp only [UNIT, finish] at hpre hvc hpost hlen
  -- Both stores are to sizes, inside the block.
  have hframe : ∀ x, x ≠ c.start + 1 → (x < c.start + 2 ∨ c.finish ≤ x) →
      (m.setSize c.start (m.size c.start - nunits)).setSize
        (c.start + UNIT * (m.size c.start - nunits)) nunits x = m x := by
    intro x hx hout
    simp only [finish] at hout
    rw [Memory.setSize, update_of_ne (by simp only [UNIT]; omega), Memory.setSize,
      update_of_ne hx]
  have hnew : ((m.setSize c.start (m.size c.start - nunits)).setSize
      (c.start + UNIT * (m.size c.start - nunits)) nunits).size c.start =
        m.size c.start - nunits := by
    rw [Memory.size, Memory.setSize, update_of_ne (by simp only [UNIT]; omega),
      Memory.setSize, update_self]
  have hother : ∀ f ∈ pre ++ v :: post, ∀ k < 2, f.start + k ≠ c.start + 1 ∧
      (f.start + k < c.start + 2 ∨ c.finish ≤ f.start + k) := by
    intro f hf k hk
    simp only [finish]
    rw [List.mem_append, List.mem_cons] at hf
    rcases hf with hf | rfl | hf
    · have := hpre f hf
      omega
    · omega
    · have := hpost f hf
      omega
  refine h.exists_replace hN ?_ ?_ ?_ ?_
  · have hstarts : (pre ++ v :: ⟨c.start, c.len - UNIT * nunits⟩ :: post).map start =
        ((⟨base, 0⟩ : Extent) :: free).map start := by simp [hN]
    rw [hstarts]
    refine chain_congr h.chain fun f hf => ?_
    rw [hN, List.mem_append, List.mem_cons, List.mem_cons] at hf
    by_cases hfc : f = c
    · subst hfc
      exact hframe _ (by omega) (by omega)
    · obtain ⟨h₁, h₂⟩ := hother f (by simp only [List.mem_append, List.mem_cons]; tauto) 0 (by omega)
      exact hframe _ h₁ h₂
  · intro f hf
    rw [List.mem_append, List.mem_cons, List.mem_cons] at hf
    by_cases hfc : f = ⟨c.start, c.len - UNIT * nunits⟩
    · subst hfc
      rw [hnew]
      simp only [UNIT]
      omega
    · obtain ⟨h₁, h₂⟩ := hother f (by simp only [List.mem_append, List.mem_cons]; tauto) 1 (by omega)
      rw [Memory.size, hframe _ h₁ h₂]
      refine h.sizes f ?_
      rw [hN, List.mem_append, List.mem_cons, List.mem_cons]
      tauto
  · have hsorted := h.sorted
    rw [hN, List.append_cons] at hsorted
    simpa using hsorted.shorten (Nat.sub_le c.len (UNIT * nunits))
  · intro f hf
    rcases List.mem_cons.mp hf with rfl | hf
    · refine ⟨?_, h.above c (hfree c (by simp))⟩
      simp only [UNIT]
      omega
    · have hf := hfree f (List.mem_cons_of_mem c hf)
      exact ⟨h.positive f hf, h.above f hf⟩

end Take

namespace Sound

variable {s : Heap} {nunits prevp : ℕ}

section Sound

variable (h : Sound base s free)
include h

theorem covered_top (hx : x ∈ covered free ∨ x ∈ covered s.handed) :
    base + UNIT ≤ x ∧ x < s.top := by
  have hregion : x ∈ covered s.regions := h.covered_eq ▸ hx
  obtain ⟨e, he, hxe⟩ := hregion
  obtain ⟨hstart, hfinish⟩ := h.inside e he
  rw [mem_words] at hxe
  omega

theorem unit_le_len (hf : f ∈ s.handed) : UNIT ≤ f.len := by
  obtain ⟨hsize, hpos⟩ := h.sizes f hf
  simp only [UNIT] at hsize ⊢
  omega

theorem header_notMem (hf : f ∈ s.handed) (hx : x = f.start ∨ x = f.start + 1) :
    x ∈ f.words ∧ x ≠ base ∧ x ≠ base + 1 ∧ x ∉ covered free := by
  have hlen := h.unit_le_len hf
  have hwords : x ∈ f.words := by
    simp only [mem_words, finish, UNIT] at hlen ⊢
    omega
  have hcovered := words_subset_covered hf hwords
  have habove := (h.covered_top (Or.inr hcovered)).1
  simp only [UNIT] at habove
  exact ⟨hwords, by omega, by omega, Set.disjoint_left.mp h.handed_free hcovered⟩

theorem length_free_le : free.length ≤ s.top := by
  have hnodup : (free.map start).Nodup := by
    refine List.pairwise_map.mpr (h.ring.separated.imp fun {e f} hef => ?_)
    simp only [finish] at hef
    omega
  have hsub : (free.map start).toFinset ⊆ Finset.range s.top := by
    intro x hx
    obtain ⟨e, he, rfl⟩ := List.mem_map.mp (List.mem_toFinset.mp hx)
    have hpos := h.ring.positive e he
    have hmem : e.start ∈ covered free :=
      words_subset_covered he (by simp only [mem_words, finish]; omega)
    exact Finset.mem_range.mpr (h.covered_top (Or.inl hmem)).2
  have hcard := Finset.card_le_card hsub
  rwa [List.toFinset_card_of_nodup hnodup, List.length_map, Finset.card_range] at hcard

theorem free_handed (he : e ∈ s.handed) :
    ∃ s' free', s.free (e.start + UNIT) = some s' ∧ Sound base s' free' := by
  obtain ⟨hsize, hpos⟩ := h.sizes e he
  obtain ⟨l₁, l₂, hsplit⟩ := List.append_of_mem he
  have hclear : Disjoint e.words (covered free) :=
    Set.disjoint_of_subset_left (words_subset_covered he) h.handed_free
  have hstart : e.start ∈ e.words := by
    simp only [mem_words, finish]
    omega
  have habove := (h.covered_top (Or.inr (words_subset_covered he hstart))).1
  obtain ⟨s', free', hfree, hrel⟩ :=
    exists_released h.ring h.freep hsize hpos habove hclear h.length_free_le
  have hdisjoint := h.disjoint
  rw [hsplit] at hdisjoint
  obtain ⟨hd₁, hd, hcross⟩ := List.pairwise_append.mp hdisjoint
  obtain ⟨hd', hd₂⟩ := List.pairwise_cons.mp hd
  have hothers : ∀ f ∈ l₁ ++ l₂, f ∈ s.handed ∧ Disjoint e.words f.words := by
    intro f hf
    rw [hsplit]
    rcases List.mem_append.mp hf with hf | hf
    · exact ⟨by simp [hf], (hcross f hf e List.mem_cons_self).symm⟩
    · exact ⟨by simp [hf], hd' f hf⟩
  have hhanded : s'.handed = l₁ ++ l₂ := by
    have hne : ∀ f ∈ l₁ ++ l₂, f.start ≠ e.start := by
      intro f hf heq
      obtain ⟨hmem, hdis⟩ := hothers f hf
      exact Set.disjoint_left.mp hdis hstart (heq ▸ (h.header_notMem hmem (Or.inl rfl)).1)
    rw [hrel.handed_eq, hsplit, List.filter_append, List.filter_cons_of_neg (by simp),
      ← List.filter_append, List.filter_eq_self.mpr (by simpa using hne)]
  have hcovered : covered s.handed = covered s'.handed ∪ e.words := by
    rw [hsplit, hhanded, covered_middle]
  refine ⟨s', free', hfree, hrel.ring, hrel.freep, ?_, ?_, ?_, ?_, ?_, ?_, ?_⟩
  · intro f hf
    rw [hhanded] at hf
    obtain ⟨hmem, hdis⟩ := hothers f hf
    obtain ⟨hw, hb, hb', hx⟩ := h.header_notMem hmem (Or.inr rfl)
    rw [Memory.size, hrel.frame _ hb hb' hx (Set.disjoint_right.mp hdis hw)]
    exact h.sizes f hmem
  · rw [hhanded]
    exact h.disjoint.sublist (by simp [hsplit])
  · rw [hrel.covered_eq, hhanded, Set.disjoint_union_right]
    constructor
    · refine Set.disjoint_of_subset_left ?_ h.handed_free
      rw [hcovered, hhanded]
      exact Set.subset_union_left
    · rw [Set.disjoint_left]
      intro x hx
      obtain ⟨f, hf, hxf⟩ := hx
      exact Set.disjoint_right.mp (hothers f hf).2 hxf
  · rw [hrel.covered_eq, hrel.regions_eq, ← h.covered_eq, hcovered, Set.union_assoc,
      Set.union_comm e.words]
  · rw [hrel.total_eq, hrel.regions_eq, ← h.total_eq, hhanded, hsplit, total_middle]
    omega
  · rw [hrel.regions_eq, hrel.top_eq]
    exact h.inside
  · rw [hrel.top_eq]
    exact h.room

theorem handOut {free' : List Extent} (hring : Ring base m' free')
    (hprev : prevp ∈ ((⟨base, 0⟩ : Extent) :: free').map start)
    (hcovered : covered free = covered free' ∪ e.words)
    (hdisjoint : Disjoint e.words (covered free')) (htotal : total free = total free' + e.len)
    (hsize : UNIT * m'.size e.start = e.len) (hpos : 0 < e.len)
    (hframe : ∀ x, x ≠ base → x ≠ base + 1 → x ∉ covered free → m' x = s.mem x) :
    Sound base { s with mem := m', freep := prevp, handed := s.handed ++ [e] } free' := by
  have hold := h.handed_free
  rw [hcovered, Set.disjoint_union_right] at hold
  refine ⟨hring, hprev, ?_, ?_, ?_, ?_, ?_, h.inside, h.room⟩
  · intro f hf
    rcases List.mem_append.mp hf with hf | hf
    · obtain ⟨-, hb, hb', hx⟩ := h.header_notMem hf (Or.inr rfl)
      have hsame : m'.size f.start = s.mem.size f.start := hframe _ hb hb' hx
      simp only [hsame]
      exact h.sizes f hf
    · obtain rfl := List.mem_singleton.mp hf
      exact ⟨hsize, hpos⟩
  · refine List.pairwise_append.mpr ⟨h.disjoint, List.pairwise_singleton _ _, fun f hf g hg => ?_⟩
    obtain rfl := List.mem_singleton.mp hg
    exact Set.disjoint_of_subset_left (words_subset_covered hf) hold.2
  · simp only [covered_append, covered_cons, covered_nil, Set.union_empty]
    exact Set.disjoint_union_left.mpr ⟨hold.1, hdisjoint⟩
  · rw [← h.covered_eq, hcovered, covered_middle, List.append_nil, Set.union_right_comm,
      Set.union_assoc]
  · have := h.total_eq
    simp only [total_append, total_cons, total_nil]
    omega

end Sound

section Take

variable {pre post : List Extent} {v c : Extent}

theorem take_all (h : Sound base s free) (hN : ⟨base, 0⟩ :: free = pre ++ v :: c :: post) :
    ∃ free', Sound base
      { s with
        mem := s.mem.setPtr v.start (s.mem.ptr c.start)
        freep := v.start
        handed := s.handed ++ [c] } free' := by
  obtain ⟨-, hvc, -, hfree⟩ := h.ring.around hN
  have hc : c ∈ free := hfree c List.mem_cons_self
  obtain ⟨free', hN', hring⟩ := h.ring.unlink hN
  refine ⟨free', h.handOut hring (by rw [hN']; simp) ?_ ?_ ?_ ?_ (h.ring.positive c hc) ?_⟩
  · rw [← Ring.covered_base base free, hN, ← Ring.covered_base base free', hN', List.append_cons,
      covered_middle, ← List.append_cons]
  · have hsorted := h.ring.sorted
    rw [hN, List.append_cons] at hsorted
    rw [← Ring.covered_base base free', hN', List.append_cons]
    exact hsorted.disjoint_words
  · have hnew := congrArg total hN'
    have hold := congrArg total hN
    simp only [total_append, total_cons] at hnew hold
    omega
  · simp only [UNIT] at hvc
    rw [Memory.size, Memory.setPtr, update_of_ne (by omega)]
    exact h.ring.sizes c (List.mem_cons_of_mem _ hc)
  · intro x hb hb' hx
    exact update_of_ne (h.ring.header_ne (e := v) (by simp [hN]) hb hb' hx).1 _ _

theorem take_tail (h : Sound base s free) (hN : ⟨base, 0⟩ :: free = pre ++ v :: c :: post)
    (hpos : 0 < nunits) (hlt : nunits < s.mem.size c.start) :
    ∃ free', Sound base
      { s with
        mem := (s.mem.setSize c.start (s.mem.size c.start - nunits)).setSize
          (c.start + UNIT * (s.mem.size c.start - nunits)) nunits
        freep := v.start
        handed := s.handed ++
          [⟨c.start + UNIT * (s.mem.size c.start - nunits), UNIT * nunits⟩] } free' := by
  obtain ⟨-, hvc, -, hfree⟩ := h.ring.around hN
  have hc : c ∈ free := hfree c List.mem_cons_self
  obtain ⟨free', hN', hring⟩ := h.ring.cut hN hpos hlt
  have hlen : c.len - UNIT * nunits = UNIT * (s.mem.size c.start - nunits) := by
    rw [← h.ring.sizes c (List.mem_cons_of_mem _ hc), Nat.mul_sub]
  have hle : UNIT * nunits ≤ c.len := by
    rw [← h.ring.sizes c (List.mem_cons_of_mem _ hc)]
    exact Nat.mul_le_mul_left _ hlt.le
  have hcut : c.words = (⟨c.start, c.len - UNIT * nunits⟩ : Extent).words ∪
      (⟨c.start + UNIT * (s.mem.size c.start - nunits), UNIT * nunits⟩ : Extent).words := by
    rw [← hlen]
    have hsplit := words_split (a := c.start) (Nat.sub_le c.len (UNIT * nunits))
    rwa [Nat.sub_sub_self hle] at hsplit
  refine ⟨free', h.handOut hring (by rw [hN']; simp) ?_ ?_ ?_ ?_ ?_ ?_⟩
  · rw [← Ring.covered_base base free, hN, ← Ring.covered_base base free', hN']
    simp only [covered_append, covered_cons, hcut]
    ext x
    simp only [Set.mem_union]
    tauto
  · have hsorted := h.ring.sorted
    rw [hN, List.append_cons] at hsorted
    have hdisjoint := hsorted.disjoint_words
    rw [hcut, Set.disjoint_union_left] at hdisjoint
    rw [← Ring.covered_base base free', hN', Set.disjoint_left]
    intro x hx hmem
    by_cases hxc : x ∈ (⟨c.start, c.len - UNIT * nunits⟩ : Extent).words
    · rw [mem_words] at hx hxc
      simp only [finish] at hx hxc
      omega
    · refine Set.disjoint_left.mp hdisjoint.2 hx ?_
      simp only [covered_append, covered_cons, covered_nil, Set.mem_union] at hmem ⊢
      tauto
  · have hnew := congrArg total hN'
    have hold := congrArg total hN
    simp only [total_append, total_cons] at hnew hold ⊢
    omega
  · exact congrArg (UNIT * ·) (Memory.size_setSize ..)
  · simp only [UNIT]
    omega
  · intro x hb hb' hx
    have hxc : x ∉ c.words := fun hxc => hx (words_subset_covered hc hxc)
    simp only [mem_words, finish] at hxc
    rw [Memory.setSize, update_of_ne, Memory.setSize, update_of_ne]
    · simp only [UNIT] at hle
      omega
    · simp only [UNIT] at hlen hle ⊢
      omega

end Take

theorem take (h : Sound base s free) (hprev : prevp ∈ ((⟨base, 0⟩ : Extent) :: free).map start)
    (hptr : s.mem.ptr prevp = p) (hpos : 0 < nunits) (hge : nunits ≤ s.mem.size p) :
    ∃ free', Sound base (s.take nunits prevp p).2 free' := by
  obtain ⟨v, hv, rfl⟩ := List.mem_map.mp hprev
  obtain ⟨pre, rest, hN⟩ := List.append_of_mem hv
  have hhead := h.ring.head_ptr hN
  rw [hptr] at hhead
  cases rest with
  | nil =>
    -- The block after the last one is `base`, which has no room.
    have hbase : UNIT * s.mem.size base = 0 := h.ring.sizes ⟨base, 0⟩ List.mem_cons_self
    obtain rfl : base = p := by simpa using hhead
    simp only [UNIT] at hbase
    omega
  | cons c post =>
    obtain rfl : c.start = p := by simpa using hhead
    rw [Heap.take]
    split_ifs with hexact
    · obtain ⟨-, -, -, hfree⟩ := h.ring.around hN
      have hlen := h.ring.sizes c (List.mem_cons_of_mem _ (hfree c List.mem_cons_self))
      rw [hexact] at hlen
      rw [hlen]
      exact h.take_all hN
    · simp only [Memory.size_setSize]
      exact h.take_tail hN hpos (lt_of_le_of_ne hge (Ne.symm hexact))

end Sound

theorem mallocLoop_walk {s : Heap} (nunits : ℕ) (gaps : List (Option ℕ)) {g : Extent}
    (hchain : List.IsChain (fun p q => s.mem.ptr p = q) ((g :: l).map start ++ [s.freep]))
    (hne : ∀ f ∈ l, f.start ≠ s.freep) (hfuel : l.length < fuel) :
    (∃ v ∈ g :: l, nunits ≤ s.mem.size (s.mem.ptr v.start) ∧
      Heap.mallocLoop nunits fuel gaps s g.start (s.mem.ptr g.start) =
        some (s.take nunits v.start (s.mem.ptr v.start))) ∨
    ((∀ f ∈ l, s.mem.size f.start < nunits) ∧ s.mem.size s.freep < nunits ∧
      ∃ k, fuel = k + l.length + 1 ∧
        Heap.mallocLoop nunits fuel gaps s g.start (s.mem.ptr g.start) =
          match s.morecore nunits (gaps.headD none) with
          | none => none
          | some (r, s) =>
            if r = 0 then some (0, s)
            else Heap.mallocLoop nunits k gaps.tail s r (s.mem.ptr r)) := by
  induction l generalizing g fuel with
  | nil =>
    obtain ⟨fuel, rfl⟩ : ∃ k, fuel = k + 1 := ⟨fuel - 1, by simp at hfuel; omega⟩
    have hptr : s.mem.ptr g.start = s.freep := by simpa using hchain
    rw [Heap.mallocLoop]
    split_ifs with hsize
    · exact Or.inl ⟨g, List.mem_cons_self, hsize, rfl⟩
    · rw [hptr, not_le] at hsize
      exact Or.inr ⟨by simp, hsize, fuel, rfl, rfl⟩
  | cons f l ih =>
    obtain ⟨fuel, rfl⟩ : ∃ k, fuel = k + 1 := ⟨fuel - 1, by simp at hfuel; omega⟩
    simp only [List.map_cons, List.cons_append, List.isChain_cons_cons] at hchain
    obtain ⟨hptr, hrest⟩ := hchain
    rw [Heap.mallocLoop]
    split_ifs with hsize hlast
    · exact Or.inl ⟨g, List.mem_cons_self, hsize, rfl⟩
    · exact absurd (hptr.symm.trans hlast) (hne f List.mem_cons_self)
    · rw [hptr, not_le] at hsize
      rw [hptr]
      rcases ih (g := f) (by simpa using hrest) (fun e he => hne e (List.mem_cons_of_mem f he))
        (Nat.lt_of_succ_lt_succ hfuel) with ⟨v, hv, hfit, hloop⟩ | ⟨hall, hfreep, k, hk, hloop⟩
      · exact Or.inl ⟨v, List.mem_cons_of_mem g hv, hfit, hloop⟩
      · refine Or.inr ⟨?_, hfreep, k, by rw [hk, List.length_cons]; omega, hloop⟩
        intro e he
        rcases List.mem_cons.mp he with rfl | he
        · exact hsize
        · exact hall e he

namespace Sound

variable {s : Heap} {nunits : ℕ}

theorem round (h : Sound base s free) (hpos : 0 < nunits) (fuel : ℕ) (gaps : List (Option ℕ))
    (hfuel : free.length < fuel) :
    (∃ r s' free', Heap.mallocLoop nunits fuel gaps s s.freep (s.mem.ptr s.freep) = some (r, s') ∧
      Sound base s' free') ∨
    ((∀ f ∈ free, s.mem.size f.start < nunits) ∧ ∃ k, fuel = k + free.length + 1 ∧
      Heap.mallocLoop nunits fuel gaps s s.freep (s.mem.ptr s.freep) =
        match s.morecore nunits (gaps.headD none) with
        | none => none
        | some (r, s) =>
          if r = 0 then some (0, s)
          else Heap.mallocLoop nunits k gaps.tail s r (s.mem.ptr r)) := by
  obtain ⟨g, l, hg, hperm, hchain⟩ := h.ring.rotate h.freep
  have hlen : l.length = free.length := by
    have := hperm.length_eq
    simpa using this
  have hnodup : ((g :: l).map start).Nodup := by
    rw [(hperm.map start).nodup_iff]
    refine List.pairwise_map.mpr (h.ring.spaced.imp fun {e f} hef => ?_)
    simp only [UNIT] at hef
    omega
  have hne : ∀ f ∈ l, f.start ≠ s.freep := by
    intro f hf heq
    rw [List.map_cons, List.nodup_cons, hg] at hnodup
    exact hnodup.1 (heq ▸ List.mem_map_of_mem hf)
  have hwalk := mallocLoop_walk nunits gaps hchain hne (hlen ▸ hfuel)
  rw [hg, hlen] at hwalk
  rcases hwalk with ⟨v, hv, hfit, hloop⟩ | ⟨hall, hfreep, k, hk, hloop⟩
  · have hmem : v.start ∈ ((⟨base, 0⟩ : Extent) :: free).map start :=
      List.mem_map_of_mem (hperm.mem_iff.mp hv)
    obtain ⟨free', hsound⟩ := h.take hmem rfl hpos hfit
    exact Or.inl ⟨_, _, free', hloop, hsound⟩
  · refine Or.inr ⟨fun f hf => ?_, k, hk, hloop⟩
    rcases List.mem_cons.mp (hperm.mem_iff.mpr (List.mem_cons_of_mem _ hf)) with rfl | hf
    · rw [hg]
      exact hfreep
    · exact hall f hf

end Sound

def Heap.extend (s : Heap) (e : Extent) (nu : ℕ) : Heap :=
  { s with mem := s.mem.setSize e.start nu, top := e.finish, regions := s.regions ++ [e] }

theorem exists_extended {s : Heap} {nu : ℕ} (h : Sound base s free) (hstart : s.top ≤ e.start)
    (hlen : e.len = UNIT * nu) (hpos : 0 < nu) :
    ∃ s' free', (s.extend e nu).free (e.start + UNIT) = some s' ∧ Sound base s' free' ∧
      free'.length ≤ free.length + 1 ∧ ∃ f ∈ free', nu ≤ s'.mem.size f.start := by
  have hbelow : ∀ x ∈ covered free, x < e.start := fun x hx =>
    (h.covered_top (Or.inl hx)).2.trans_le hstart
  have hhanded : ∀ x ∈ covered s.handed, x < e.start := fun x hx =>
    (h.covered_top (Or.inr hx)).2.trans_le hstart
  have hroom := h.room.trans hstart
  have hframe : ∀ x < e.start, (s.extend e nu).mem x = s.mem x := fun x hx =>
    update_of_ne (by omega) _ _
  have hring : Ring base (s.extend e nu).mem free := by
    refine h.ring.congr fun f hf => ?_
    have hlt : ∀ x, x = f.start ∨ x = f.start + 1 → x < e.start := by
      intro x hx
      rcases h.ring.header_mem hf hx with rfl | rfl | hx
      · simp only [UNIT] at hroom
        omega
      · simp only [UNIT] at hroom
        omega
      · exact hbelow x hx
    exact ⟨hframe _ (hlt _ (Or.inl rfl)), hframe _ (hlt _ (Or.inr rfl))⟩
  have hclear : ∀ l : List Extent, (∀ x ∈ covered l, x < e.start) →
      Disjoint e.words (covered l) := by
    intro l hl
    rw [Set.disjoint_left]
    intro x hx hxl
    have := hl x hxl
    rw [mem_words] at hx
    omega
  have hepos : 0 < e.len := by
    rw [hlen]
    exact Nat.mul_pos (by decide) hpos
  obtain ⟨s', free', hfree, hrel⟩ := exists_released hring h.freep
    (by rw [hlen]; exact congrArg (UNIT * ·) (Memory.size_setSize ..)) hepos hroom
    (hclear free hbelow)
    (h.length_free_le.trans (hstart.trans (Nat.le_add_right e.start e.len)))
  have hsame : s'.handed = s.handed := by
    rw [hrel.handed_eq]
    refine List.filter_eq_self.mpr fun f hf => ?_
    have hmem := words_subset_covered hf (h.header_notMem hf (Or.inl rfl)).1
    simpa using (hhanded _ hmem).ne
  refine ⟨s', free', hfree, ⟨hrel.ring, hrel.freep, ?_, ?_, ?_, ?_, ?_, ?_, ?_⟩, hrel.length_le,
    ?_⟩
  · intro f hf
    rw [hsame] at hf
    obtain ⟨hw, hb, hb', hx⟩ := h.header_notMem hf (Or.inr rfl)
    have hlt := hhanded _ (words_subset_covered hf hw)
    have hout : f.start + 1 ∉ e.words := fun hxe => by
      rw [mem_words] at hxe
      omega
    rw [Memory.size, hrel.frame _ hb hb' hx hout, hframe _ hlt]
    exact h.sizes f hf
  · rw [hsame]
    exact h.disjoint
  · rw [hsame, hrel.covered_eq]
    exact Set.disjoint_union_right.mpr ⟨h.handed_free, (hclear s.handed hhanded).symm⟩
  · rw [hsame, hrel.covered_eq, hrel.regions_eq, Heap.extend, covered_middle, List.append_nil,
      ← h.covered_eq, Set.union_right_comm]
  · have htotal := h.total_eq
    rw [hsame, hrel.total_eq, hrel.regions_eq, Heap.extend, total_middle, List.append_nil]
    omega
  · intro f hf
    rw [hrel.regions_eq, Heap.extend] at hf
    rw [hrel.top_eq]
    rcases List.mem_append.mp hf with hf | hf
    · obtain ⟨hlow, hhigh⟩ := h.inside f hf
      exact ⟨hlow, hhigh.trans (hstart.trans (Nat.le_add_right e.start e.len))⟩
    · obtain rfl := List.mem_singleton.mp hf
      exact ⟨hroom, le_rfl⟩
  · rw [hrel.top_eq]
    exact hroom.trans (Nat.le_add_right e.start e.len)
  · obtain ⟨f, hf, hle⟩ := hrel.large
    refine ⟨f, hf, ?_⟩
    have hsize := hrel.ring.sizes f (List.mem_cons_of_mem _ hf)
    simp only [UNIT] at hsize hlen
    omega

theorem Sound.asked {s : Heap} (h : Sound base s free) (asked : List ℤ) :
    Sound base { s with asked := asked } free :=
  ⟨h.ring, h.freep, h.sizes, h.disjoint, h.handed_free, h.covered_eq, h.total_eq, h.inside, h.room⟩

theorem exists_morecore {s : Heap} {nunits : ℕ} (h : Sound base s free)
    (hle : nunits ≤ 2 ^ 28 + 1) (gap : ℕ) :
    ∃ s' free', s.morecore nunits (some gap) = some (s'.freep, s') ∧ Sound base s' free' ∧
      free'.length ≤ free.length + 1 ∧ ∃ f ∈ free', nunits ≤ s'.mem.size f.start := by
  obtain ⟨nu, hnu⟩ : ∃ nu, nu = if nunits < 4096 then 4096 else nunits := ⟨_, rfl⟩
  have hnu_le : nunits ≤ nu ∧ 0 < nu ∧ nu ≤ 2 ^ 28 + 1 := by
    rw [hnu]
    split_ifs <;> omega
  have hlen : nu * HEADER % 2 ^ 32 / 4 = UNIT * nu := by
    simp only [HEADER, UNIT]
    omega
  obtain ⟨s', free', hfree, hsound, hlength, f, hf, hsize⟩ :=
    exists_extended (s := s.ask nunits) (e := ⟨s.top + gap, UNIT * nu⟩) (h.asked _)
      (Nat.le_add_right _ _) rfl hnu_le.2.1
  refine ⟨s', free', ?_, hsound, hlength, f, hf, hnu_le.1.trans hsize⟩
  rw [Heap.morecore, ← hnu, hlen]
  exact congrArg (Option.map fun s => (s.freep, s)) hfree

namespace Sound

variable {s : Heap}

theorem freep_pos (h : Sound base s free) (hbase : 0 < base) : s.freep ≠ 0 := by
  obtain ⟨e, he, heq⟩ := List.mem_map.mp h.freep
  rcases List.mem_cons.mp he with rfl | he
  · exact heq ▸ hbase.ne'
  · have := h.ring.above e he
    omega

theorem mallocLoop {nunits : ℕ} (h : Sound base s free) (hbase : 0 < base) (hpos : 0 < nunits)
    (hle : nunits ≤ 2 ^ 28 + 1) (gaps : List (Option ℕ)) :
    ∃ r s' free', Heap.mallocLoop nunits (2 * (s.top + 2)) gaps s s.freep (s.mem.ptr s.freep) =
      some (r, s') ∧ Sound base s' free' := by
  have hlength := h.length_free_le
  rcases h.round hpos (2 * (s.top + 2)) gaps (by omega) with hdone | ⟨-, k, hk, hloop⟩
  · exact hdone
  · rw [hloop]
    cases hgap : gaps.headD none with
    | none => exact ⟨0, s.ask nunits, free, rfl, h.asked _⟩
    | some gap =>
      obtain ⟨s', free', hmore, hsound, hlength', f, hf, hsize⟩ := exists_morecore h hle gap
      rw [hmore]
      simp only [hsound.freep_pos hbase, if_false]
      rcases hsound.round hpos k gaps.tail (by omega) with hdone | ⟨hnone, -⟩
      · exact hdone
      · exact absurd (hnone f hf) (Nat.not_lt.mpr hsize)

theorem scribble (h : Sound base s free)
    (hm : ∀ x, (∀ e ∈ s.handed, ¬ (e.start + UNIT ≤ x ∧ x < e.finish)) → m x = s.mem x) :
    Sound base { s with mem := m } free := by
  have hout : ∀ x, x ∉ covered s.handed → m x = s.mem x := by
    intro x hx
    refine hm x fun e he hxe => hx (words_subset_covered he ?_)
    exact ⟨le_of_add_le_left hxe.1, hxe.2⟩
  refine ⟨h.ring.congr fun e he => ?_, h.freep, fun e he => ?_, h.disjoint, h.handed_free,
    h.covered_eq, h.total_eq, h.inside, h.room⟩
  · have hkeep : ∀ x, x = e.start ∨ x = e.start + 1 → m x = s.mem x := by
      intro x hx
      refine hout x fun hxh => ?_
      have habove := (h.covered_top (Or.inr hxh)).1
      rcases h.ring.header_mem he hx with hxb | hxb | hxb
      · simp only [UNIT] at habove
        omega
      · simp only [UNIT] at habove
        omega
      · exact Set.disjoint_left.mp h.handed_free hxh hxb
    exact ⟨hkeep _ (Or.inl rfl), hkeep _ (Or.inr rfl)⟩
  · -- A header is not part of the memory that its own block gives to the process.
    have hsame : m.size e.start = s.mem.size e.start := by
      refine hm _ fun f hf hxf => ?_
      by_cases hef : e = f
      · subst hef
        simp only [UNIT] at hxf
        omega
      · have : Std.Symm fun e f : Extent => Disjoint e.words f.words := 
          ⟨fun _ _ hxy => hxy.symm⟩
        have hdis := h.disjoint.forall he hf hef
        exact Set.disjoint_left.mp hdis (h.header_notMem he (Or.inr rfl)).1
          ⟨le_of_add_le_left hxf.1, hxf.2⟩
    simp only [hsame]
    exact h.sizes e he

end Sound

def Inv (base : ℕ) (s : Heap) : Prop :=
  base + UNIT ≤ s.top ∧ (s.freep = 0 ∧ s.regions = [] ∧ s.handed = [] ∨ ∃ free, Sound base s free)

theorem Inv.init {s : Heap} (h : Inv base s) (hbase : 0 < base) :
    ∃ free, Sound base (s.init base) free := by
  obtain ⟨hroom, ⟨hfreep, hregions, hhanded⟩ | ⟨free, h⟩⟩ := h
  · refine ⟨[], ?_⟩
    rw [Heap.init, if_pos hfreep]
    have hptr : ((s.mem.setPtr base base).setSize base 0).ptr base = base := by
      rw [Memory.ptr, Memory.setSize, update_of_ne (by omega), Memory.setPtr,
        update_self]
    refine ⟨⟨by simpa using hptr, by simp, List.Pairwise.nil, by simp, by simp⟩, by simp, ?_, ?_, ?_,
      ?_, ?_, ?_, hroom⟩
    all_goals simp [hregions, hhanded]
  · refine ⟨free, ?_⟩
    rw [Heap.init, if_neg (h.freep_pos hbase)]
    exact h.asked []

theorem Inv.act {s : Heap} {a : Action} (h : Inv base s) (hbase : 0 < base)
    (ha : Allowed (some s) a) : ∃ s', act base (some s) a = some s' ∧ Inv base s' := by
  cases a with
  | malloc nbytes gaps =>
    have hbytes : nbytes < 2 ^ 31 := ha
    obtain ⟨free, hinit⟩ := h.init hbase
    have hpos : 0 < Heap.units nbytes := Nat.succ_pos _
    have hunits : Heap.units nbytes ≤ 2 ^ 28 + 1 := by
      simp only [Heap.units, HEADER]
      omega
    obtain ⟨r, s', free', hloop, hsound⟩ := hinit.mallocLoop hbase hpos hunits gaps
    refine ⟨s', ?_, hsound.room, Or.inr ⟨free', hsound⟩⟩
    change (s.malloc base nbytes gaps).map Prod.snd = some s'
    rw [Heap.malloc, hloop]
    rfl
  | free ap =>
    obtain ⟨t, ht, e, he, rfl⟩ := ha
    cases ht
    obtain ⟨hroom, ⟨-, -, hhanded⟩ | ⟨free, h⟩⟩ := h
    · rw [hhanded] at he
      cases he
    · obtain ⟨s', free', hfree, hsound⟩ := h.free_handed he
      exact ⟨s', hfree, hsound.room, Or.inr ⟨free', hsound⟩⟩
  | scribble m =>
    have hm := ha s rfl
    refine ⟨{ s with mem := m }, rfl, h.1, ?_⟩
    rcases h.2 with hempty | ⟨free, h⟩
    · exact Or.inl hempty
    · exact Or.inr ⟨free, h.scribble hm⟩

/-- In every run each call returns, and the blocks handed out and the free blocks partition the
memory obtained from `sbrk`. -/
theorem umalloc_partition (base top : ℕ) (m : Memory) (hbase : 0 < base)
    (htop : base + UNIT ≤ top) (acts : List Action)
    (hacts : Along (act base) Allowed (some ⟨m, 0, top, [], [], []⟩) acts) :
    Always (act base) (fun s => ∃ h, s = some h ∧ Inv base h) (some ⟨m, 0, top, [], [], []⟩)
      acts := by
  refine hacts.always (I := fun s => ∃ h, s = some h ∧ Inv base h)
    ⟨_, rfl, htop, Or.inl ⟨rfl, rfl, rfl⟩⟩ ?_ fun s hs => hs
  intro s a hs ha
  obtain ⟨h, rfl, hinv⟩ := hs
  exact hinv.act hbase ha

def twoBlocks : List Action := [.malloc 100 [some 0], .malloc 50 [], .free 8266]

theorem umalloc_partition_twoBlocks :
    Always (act 10) (fun s => ∃ h, s = some h ∧ Inv 10 h) (some ⟨fun _ => 0, 0, 100, [], [], []⟩)
      twoBlocks ∧
    (run (act 10) (some ⟨fun _ => 0, 0, 100, [], [], []⟩) twoBlocks).map Heap.handed =
      some [⟨8248, 16⟩] := by
  refine ⟨umalloc_partition 10 100 _ (by decide) (by decide) twoBlocks ?_, by decide +kernel⟩
  refine ⟨(by decide : 100 < 2 ^ 31), (by decide : 50 < 2 ^ 31), ?_, trivial⟩
  exact ⟨_, rfl, ⟨8264, 28⟩, by decide +kernel, rfl⟩

namespace Heap

variable (s : Heap)

/-- `malloc` does not shrink the heap, and a block that it returns has `nbytes` usable bytes in
memory from `sbrk`. -/
def Serves (base nbytes : ℕ) (gaps : List (Option ℕ)) : Prop :=
  ∃ r s', s.malloc base nbytes gaps = some (r, s') ∧ (∀ n ∈ s'.asked, 0 ≤ n) ∧
    (r ≠ 0 → ∃ e ∈ s'.handed, r = e.start + UNIT ∧ nbytes ≤ 4 * (e.len - UNIT) ∧
      e.words ⊆ covered s'.regions)

variable {s} {nunits : ℕ}

theorem morecore_asked {gap : Option ℕ} {r : ℕ} {s' : Heap}
    (h : s.morecore nunits gap = some (r, s')) : s'.asked = s.asked ++ [sbrkArg nunits] := by
  cases gap with
  | none =>
    cases h
    rfl
  | some gap =>
    obtain ⟨t, ht, heq⟩ := Option.map_eq_some_iff.mp h
    obtain ⟨p, -, rfl⟩ := Option.map_eq_some_iff.mp ht
    cases heq
    rfl

theorem take_handed (s : Heap) (nunits prevp p : ℕ) :
    (s.take nunits prevp p).2.asked = s.asked ∧ ∃ e ∈ (s.take nunits prevp p).2.handed,
      (s.take nunits prevp p).1 = e.start + UNIT ∧ e.len = UNIT * nunits := by
  rw [take]
  split_ifs
  · exact ⟨rfl, ⟨p, UNIT * nunits⟩, by simp, rfl, rfl⟩
  · exact ⟨rfl, ⟨_, UNIT * nunits⟩, List.mem_append_right _ List.mem_cons_self, rfl, rfl⟩

theorem mallocLoop_handed {prevp r : ℕ} {gaps : List (Option ℕ)} {s' : Heap}
    (h : mallocLoop nunits fuel gaps s prevp p = some (r, s')) :
    (∀ n ∈ s'.asked, n ∈ s.asked ∨ n = sbrkArg nunits) ∧
      (r ≠ 0 → ∃ e ∈ s'.handed, r = e.start + UNIT ∧ e.len = UNIT * nunits) := by
  induction fuel generalizing gaps s prevp p with
  | zero => cases h
  | succ fuel ih =>
    rw [mallocLoop] at h
    split_ifs at h
    · obtain ⟨rfl, rfl⟩ := Prod.mk.inj (Option.some.inj h)
      obtain ⟨hasked, hhanded⟩ := take_handed s nunits prevp p
      exact ⟨fun n hn => .inl (hasked ▸ hn), fun _ => hhanded⟩
    · split at h
      · cases h
      · next s₁ hmore =>
        have hasked : ∀ n, n ∈ s₁.asked ↔ n ∈ s.asked ∨ n = sbrkArg nunits := by
          simp [morecore_asked hmore]
        split_ifs at h with hr
        · obtain ⟨rfl, rfl⟩ := Prod.mk.inj (Option.some.inj h)
          exact ⟨fun n => (hasked n).mp, fun h0 => absurd rfl h0⟩
        · obtain ⟨hnext, hhanded⟩ := ih h
          exact ⟨fun n hn => (hnext n hn).elim (hasked n).mp .inr, hhanded⟩
    · exact ih h

end Heap

variable {nbytes : ℕ}

theorem Inv.serves {s : Heap} (h : Inv base s) (hbase : 0 < base)
    (hbytes : nbytes ≤ 2 ^ 31 - 16) (gaps : List (Option ℕ)) : s.Serves base nbytes gaps := by
  have hunits : Heap.units nbytes = (nbytes + 7) / 8 + 1 := by
    simp only [Heap.units, HEADER]
    omega
  have hallowed : Allowed (some s) (.malloc nbytes gaps) := by
    change nbytes < 2 ^ 31
    omega
  obtain ⟨t, hact, -, hinv⟩ := h.act hbase hallowed
  obtain ⟨⟨r, s'⟩, hmalloc, rfl⟩ := Option.map_eq_some_iff.mp hact
  obtain ⟨hasked, hhanded⟩ := Heap.mallocLoop_handed hmalloc
  refine ⟨r, s', hmalloc, fun n hn => ?_, fun hr => ?_⟩
  · have hinit : (s.init base).asked = [] := by
      rw [Heap.init]
      split_ifs <;> rfl
    rcases hasked n hn with hn | rfl
    · rw [hinit] at hn
      cases hn
    · rw [Heap.sbrkArg, BitVec.toInt_eq_toNat_cond, BitVec.toNat_ofNat, hunits]
      simp only [HEADER]
      split_ifs <;> omega
  · obtain ⟨e, he, hstart, hlen⟩ := hhanded hr
    refine ⟨e, he, hstart, ?_, ?_⟩
    · rw [hlen, hunits]
      simp only [UNIT]
      omega
    · rcases hinv with ⟨-, -, hnone⟩ | ⟨free, hsound⟩
      · rw [hnone] at he
        cases he
      · rw [← hsound.covered_eq]
        exact (words_subset_covered he).trans Set.subset_union_right

def fresh : Heap := ⟨fun _ => 0, 0, 100, [], [], []⟩

theorem inv_fresh : Inv 10 fresh := ⟨by decide, Or.inl ⟨rfl, rfl, rfl⟩⟩

def firstBlock (nunits : ℕ) : Option (ℕ × List Extent × List Extent) :=
  (Heap.mallocLoop nunits 204 [some 0] (fresh.init 10) 10 10).map fun x =>
    (x.1, x.2.handed, x.2.regions)

theorem not_serves_of_firstBlock {nbytes r : ℕ} {e : Extent} {regions : List Extent}
    (h : firstBlock (Heap.units nbytes) = some (r, [e], regions)) (hr : r ≠ 0)
    (hbad : nbytes ≤ 4 * (e.len - UNIT) → ¬ e.words ⊆ covered regions) :
    ¬ fresh.Serves 10 nbytes [some 0] := by
  rintro ⟨r', s', hmalloc, -, hblock⟩
  obtain ⟨x, hfirst, hx⟩ := Option.map_eq_some_iff.mp h
  obtain rfl : x = (r', s') := Option.some.inj (hfirst.symm.trans hmalloc)
  simp only [Prod.mk.injEq] at hx
  obtain ⟨rfl, hhanded, rfl⟩ := hx
  obtain ⟨f, hf, -, hlen, hwords⟩ := hblock hr
  obtain rfl : f = e := by simpa [hhanded] using hf
  exact hbad hlen hwords

theorem sbrkArg_of_serves (h : fresh.Serves 10 nbytes [none]) :
    0 ≤ Heap.sbrkArg (Heap.units nbytes) := by
  obtain ⟨r, s', hmalloc, hasked, -⟩ := h
  have hptr : (fresh.init 10).mem.ptr (fresh.init 10).freep = 10 := by decide
  have hsize : (fresh.init 10).mem.size 10 = 0 := by decide
  have hfuel : 2 * ((fresh.init 10).top + 2) = 203 + 1 := by decide
  simp only [Heap.malloc, hptr, hfuel] at hmalloc
  rw [Heap.mallocLoop, hsize, if_neg (by simp [Heap.units]), if_pos (by decide)] at hmalloc
  obtain ⟨-, rfl⟩ := Prod.mk.inj (Option.some.inj hmalloc)
  exact hasked _ List.mem_cons_self

theorem not_serves_fresh (hlarge : 2 ^ 31 - 16 < nbytes) (hbytes : nbytes < 2 ^ 32) :
    ∃ gaps, ¬ fresh.Serves 10 nbytes gaps := by
  by_cases hneg : nbytes ≤ 2 ^ 32 - 16
  · -- The product is at least 2 ^ 31, a negative `int`.
    refine ⟨[none], fun hserves => ?_⟩
    have hunits : Heap.units nbytes = (nbytes + 7) / 8 + 1 := by
      simp only [Heap.units, HEADER]
      omega
    have hask := sbrkArg_of_serves hserves
    simp only [Heap.sbrkArg, HEADER, hunits, BitVec.toInt_eq_toNat_cond, BitVec.toNat_ofNat] at hask
    rw [if_neg (by omega : ¬ (nbytes + 7) / 8 + 1 < 4096)] at hask
    split_ifs at hask <;> omega
  · refine ⟨[some 0], ?_⟩
    by_cases hzero : nbytes ≤ 2 ^ 32 - 8
    · -- The product is 2 ^ 32, and `sbrk` is asked for nothing.
      have hunits : Heap.units nbytes = 2 ^ 29 := by
        simp only [Heap.units, HEADER]
        omega
      have hfirst : firstBlock (2 ^ 29) = some (102, [⟨100, 2 ^ 30⟩], [⟨100, 0⟩]) := by
        decide +kernel
      refine not_serves_of_firstBlock (hunits ▸ hfirst) (by decide) fun _ hwords => ?_
      have hmem := hwords (show 100 ∈ (⟨100, 2 ^ 30⟩ : Extent).words from ⟨le_rfl, by decide⟩)
      simp [covered, words, finish] at hmem
    · -- The sum wraps, and the block is a header alone.
      have hunits : Heap.units nbytes = 1 := by
        simp only [Heap.units, HEADER]
        omega
      have hfirst : firstBlock 1 = some (8292, [⟨8290, 2⟩], [⟨100, 8192⟩]) := by
        decide +kernel
      refine not_serves_of_firstBlock (hunits ▸ hfirst) (by decide) fun hlen => ?_
      simp only [UNIT] at hlen
      omega

/-- `malloc` serves a request in every heap exactly if it is for at most `2 ^ 31 - 16` bytes. -/
theorem malloc_serves_iff (nbytes : ℕ) (hbytes : nbytes < 2 ^ 32) :
    (∀ base s gaps, 0 < base → Inv base s → s.Serves base nbytes gaps) ↔
      nbytes ≤ 2 ^ 31 - 16 := by
  constructor
  · intro h
    by_contra hlarge
    obtain ⟨gaps, hnot⟩ := not_serves_fresh (Nat.not_le.mp hlarge) hbytes
    exact hnot (h 10 fresh gaps (by decide) inv_fresh)
  · intro hsmall base s gaps hbase h
    exact h.serves hbase hsmall gaps

theorem malloc_serves_iff_hundred : fresh.Serves 10 100 [some 0] :=
  (malloc_serves_iff 100 (by decide)).mpr (by decide) 10 fresh [some 0] (by decide) inv_fresh

theorem not_malloc_serves :
    ¬ ∀ nbytes < 2 ^ 32, ∀ base s gaps, 0 < base → Inv base s → s.Serves base nbytes gaps := by
  intro h
  obtain ⟨gaps, hnot⟩ := not_serves_fresh (by decide : 2 ^ 31 - 16 < 2 ^ 32 - 1) (by decide)
  exact hnot (h (2 ^ 32 - 1) (by decide) 10 fresh gaps (by decide) inv_fresh)

end Xv6Prng.Umalloc
