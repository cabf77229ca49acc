import Xv6Prng.Library.ByteWords
import Xv6Prng.Library.Halting

/-!
# The buffer cache of `bio.c`

Thirty buffers in the order of their last use. `bget` finds the buffer of a block or
recycles the least recently used one that is neither busy nor dirty; `bread` fills it from
the disk and `bwrite` writes it through. One process runs at a time: a buffer that is
found busy is held by the caller itself, who would sleep for ever. The ghost `crashDisks`
records the disks that a crash can leave.
-/

namespace Xv6Prng.Fs

open ByteWords Halting Function

abbrev NBUF : ℕ := 30
abbrev FSSIZE : ℕ := 1000

abbrev DiskBlock := Buffer 512
abbrev Disk := Word → DiskBlock

/-- A buffer; `blockno` is `none` before the first use, when `dev` is -1. -/
structure Buf where
  blockno : Option Word
  busy : Bool
  valid : Bool
  dirty : Bool
  data : DiskBlock

structure Machine where
  disk : Disk
  bufs : Fin NBUF → Buf
  mru : List (Fin NBUF)
  lh : List Word
  outstanding : ℕ
  crashDisks : List Disk

inductive Halt
  | panic (msg : String)
  | asleep
  | overflow
  deriving DecidableEq

abbrev FsM := EStateM Halt Machine

def setBuf (i : Fin NBUF) (b : Buf) : FsM Unit :=
  modify fun m => { m with bufs := Function.update m.bufs i b }

def setData (i : Fin NBUF) (data : DiskBlock) : FsM Unit := do
  let m ← get
  setBuf i { m.bufs i with data := data }

def bget (blockno : Word) : FsM (Fin NBUF) := do
  let m ← get
  match m.mru.find? fun i => (m.bufs i).blockno = some blockno with
  | some i =>
    if (m.bufs i).busy then throw .asleep
    else do
      setBuf i { m.bufs i with busy := true }
      return i
  | none =>
    match m.mru.reverse.find? fun i => !(m.bufs i).busy && !(m.bufs i).dirty with
    | some i => do
      setBuf i ⟨some blockno, true, false, false, (m.bufs i).data⟩
      return i
    | none => throw (.panic "bget: no buffers")

def iderw (i : Fin NBUF) : FsM Unit := do
  let m ← get
  let b := m.bufs i
  if b.busy = false then throw (.panic "iderw: buf not busy")
  else if b.valid = true ∧ b.dirty = false then throw (.panic "iderw: nothing to do")
  else match b.blockno with
    | none => throw (.panic "iderw: ide disk 1 not present")
    | some blockno =>
      if blockno.toNat ≥ FSSIZE then throw (.panic "incorrect blockno")
      else if b.dirty then
        let disk := Function.update m.disk blockno b.data
        set { m with
          disk := disk
          bufs := Function.update m.bufs i { b with valid := true, dirty := false }
          crashDisks := m.crashDisks ++ [disk] }
      else setBuf i { b with valid := true, data := m.disk blockno }

def bread (blockno : Word) : FsM (Fin NBUF) := do
  let i ← bget blockno
  let m ← get
  if (m.bufs i).valid = false then iderw i
  return i

def bwrite (i : Fin NBUF) : FsM Unit := do
  let m ← get
  if (m.bufs i).busy = false then throw (.panic "bwrite")
  else do
    setBuf i { m.bufs i with dirty := true }
    iderw i

def brelse (i : Fin NBUF) : FsM Unit := do
  let m ← get
  if (m.bufs i).busy = false then throw (.panic "brelse")
  else set { m with
    mru := i :: m.mru.erase i
    bufs := Function.update m.bufs i { m.bufs i with busy := false } }

structure BufOk (view : Disk) (dirty : Finset Word) (held : Finset (Fin NBUF)) (i : Fin NBUF)
    (x : Buf) : Prop where
  busy : x.busy = true ↔ i ∈ held
  dirty : x.dirty = true ↔ ∃ b ∈ dirty, x.blockno = some b
  data : ∀ b, x.blockno = some b → x.valid = true ∧ x.data = view b ∧ b.toNat < FSSIZE

structure Cached (m : Machine) (view : Disk) (dirty : Finset Word) (held : Finset (Fin NBUF)) :
    Prop where
  order : ∀ i, i ∈ m.mru
  unique : ∀ i j b, (m.bufs i).blockno = some b → (m.bufs j).blockno = some b → i = j
  buf : ∀ i, BufOk view dirty held i (m.bufs i)
  cached : ∀ b ∈ dirty, ∃ i, (m.bufs i).blockno = some b
  rest : ∀ b ∉ dirty, (∀ i ∈ held, (m.bufs i).blockno ≠ some b) → view b = m.disk b

section Change

variable {m : Machine} {view : Disk} {dirty : Finset Word} {held : Finset (Fin NBUF)} {i : Fin NBUF}

theorem Cached.change (h : Cached m view dirty held) {m' : Machine} {x : Buf}
    {view' : Disk} {dirty' : Finset Word} {held' : Finset (Fin NBUF)}
    (hbufs : m'.bufs = update m.bufs i x) (horder : ∀ j, j ∈ m'.mru)
    (hx : BufOk view' dirty' held' i x)
    (hothers : ∀ j ≠ i, (j ∈ held' ↔ j ∈ held) ∧ ∀ c, (m.bufs j).blockno = some c →
      x.blockno ≠ some c ∧ view' c = view c ∧ (c ∈ dirty' ↔ c ∈ dirty))
    (hcached : ∀ b ∈ dirty', x.blockno = some b ∨ ∃ j ≠ i, (m.bufs j).blockno = some b)
    (hrest : ∀ b ∉ dirty', (∀ j ∈ held', (m'.bufs j).blockno ≠ some b) → view' b = m'.disk b) :
    Cached m' view' dirty' held' := by
  have hself : m'.bufs i = x := by rw [hbufs, update_self]
  have hother {j : Fin NBUF} (hj : j ≠ i) : m'.bufs j = m.bufs j := by
    rw [hbufs, update_of_ne hj]
  refine ⟨horder, ?_, ?_, ?_, hrest⟩
  · intro j k c hj hk
    by_cases hji : j = i <;> by_cases hki : k = i
    · rw [hji, hki]
    · rw [hji, hself] at hj
      rw [hother hki] at hk
      exact absurd hj ((hothers k hki).2 c hk).1
    · rw [hki, hself] at hk
      rw [hother hji] at hj
      exact absurd hk ((hothers j hji).2 c hj).1
    · rw [hother hji] at hj
      rw [hother hki] at hk
      exact h.unique j k c hj hk
  · intro j
    by_cases hji : j = i
    · rw [hji, hself]
      exact hx
    · obtain ⟨hheld, hblock⟩ := hothers j hji
      have hj := h.buf j
      rw [hother hji]
      refine ⟨hj.busy.trans hheld.symm, hj.dirty.trans ?_, fun b hb => ?_⟩
      · exact exists_congr fun b => and_congr_left fun hb => (hblock b hb).2.2.symm
      · rw [(hblock b hb).2.1]
        exact hj.data b hb
  · intro b hb
    rcases hcached b hb with hxb | ⟨j, hji, hjb⟩
    · exact ⟨i, by rw [hself, hxb]⟩
    · exact ⟨j, by rw [hother hji, hjb]⟩

theorem blockno_update {bufs : Fin NBUF → Buf} {x : Buf}
    (hx : x.blockno = (bufs i).blockno) (j : Fin NBUF) :
    (update bufs i x j).blockno = (bufs j).blockno := by
  by_cases hj : j = i
  · rw [hj, update_self, hx]
  · rw [update_of_ne hj]

theorem Cached.change_kept (h : Cached m view dirty held) {m' : Machine} {x : Buf}
    {view' : Disk} {dirty' : Finset Word} {held' : Finset (Fin NBUF)}
    (hbufs : m'.bufs = update m.bufs i x) (horder : ∀ j, j ∈ m'.mru)
    (hblockno : x.blockno = (m.bufs i).blockno) (hx : BufOk view' dirty' held' i x)
    (hothers : ∀ j ≠ i, (j ∈ held' ↔ j ∈ held) ∧ ∀ c, (m.bufs j).blockno = some c →
      view' c = view c ∧ (c ∈ dirty' ↔ c ∈ dirty))
    (hcached : ∀ b ∈ dirty', b ∈ dirty ∨ x.blockno = some b)
    (hrest : ∀ b ∉ dirty', (∀ j ∈ held', (m.bufs j).blockno ≠ some b) → view' b = m'.disk b) :
    Cached m' view' dirty' held' := by
  refine h.change hbufs horder hx (fun j hj => ?_) (fun b hb => ?_) fun b hb hfree => ?_
  · refine ⟨(hothers j hj).1, fun c hc => ⟨fun hic => ?_, (hothers j hj).2 c hc⟩⟩
    exact hj (h.unique j i c hc (hblockno ▸ hic))
  · rcases hcached b hb with hd | hxb
    · obtain ⟨j, hj⟩ := h.cached b hd
      by_cases hji : j = i
      · exact Or.inl (hblockno.trans (hji ▸ hj))
      · exact Or.inr ⟨j, hji, hj⟩
    · exact Or.inl hxb
  · refine hrest b hb fun j hj => ?_
    have hjfree := hfree j hj
    rwa [hbufs, blockno_update hblockno] at hjfree

end Change

structure SameDisk (m m' : Machine) : Prop where
  disk : m'.disk = m.disk
  lh : m'.lh = m.lh
  outstanding : m'.outstanding = m.outstanding
  crashDisks : m'.crashDisks = m.crashDisks

structure Wrote (m : Machine) (b : Word) (data : DiskBlock) (m' : Machine) : Prop where
  disk : m'.disk = Function.update m.disk b data
  lh : m'.lh = m.lh
  outstanding : m'.outstanding = m.outstanding
  crashDisks : m'.crashDisks = m.crashDisks ++ [m'.disk]

structure Got (m : Machine) (view : Disk) (dirty : Finset Word) (held : Finset (Fin NBUF))
    (b : Word) (i : Fin NBUF) (m' : Machine) : Prop extends SameDisk m m' where
  cached : Cached m' view dirty (insert i held)
  fresh : i ∉ held
  blockno : (m'.bufs i).blockno = some b
  others : ∀ j ∈ held, m'.bufs j = m.bufs j

section Operations

variable {m : Machine} {view : Disk} {dirty : Finset Word} {held : Finset (Fin NBUF)} {b : Word}
  {i : Fin NBUF}

theorem Cached.got_hit (h : Cached m view dirty held) (hi : (m.bufs i).blockno = some b)
    (hheld : i ∉ held) :
    Got m view dirty held b i
      { m with bufs := update m.bufs i { m.bufs i with busy := true } } := by
  refine ⟨⟨rfl, rfl, rfl, rfl⟩, h.change_kept rfl h.order rfl ?_ ?_ ?_ ?_, hheld, ?_, ?_⟩
  · exact ⟨by simp, (h.buf i).dirty, (h.buf i).data⟩
  · exact fun j hj => ⟨by simp [hj], fun c _ => ⟨rfl, Iff.rfl⟩⟩
  · exact fun c hc => Or.inl hc
  · exact fun c hc hfree => h.rest c hc fun j hj => hfree j (Finset.mem_insert_of_mem hj)
  · simpa using hi
  · exact fun j hj => update_of_ne (ne_of_mem_of_not_mem hj hheld) _ _

theorem Cached.got_miss (h : Cached m view dirty held)
    (hnone : ∀ j, (m.bufs j).blockno ≠ some b) (hheld : i ∉ held)
    (hclean : (m.bufs i).dirty = false) (hb : b.toNat < FSSIZE) :
    Got m view dirty held b i
      { m with bufs := update m.bufs i ⟨some b, true, true, false, m.disk b⟩ } := by
  have hbdirty : b ∉ dirty := by
    intro hb
    obtain ⟨j, hj⟩ := h.cached b hb
    exact hnone j hj
  have hother {j : Fin NBUF} (hj : j ∈ held) :
      update m.bufs i ⟨some b, true, true, false, m.disk b⟩ j = m.bufs j :=
    update_of_ne (ne_of_mem_of_not_mem hj hheld) _ _
  refine ⟨⟨rfl, rfl, rfl, rfl⟩, h.change rfl h.order ?_ ?_ ?_ ?_, hheld, ?_, fun j hj => hother hj⟩
  · refine ⟨by simp, iff_of_false Bool.false_ne_true ?_, fun c hc => ?_⟩
    · rintro ⟨c, hc, hcb⟩
      cases hcb
      exact hbdirty hc
    · cases hc
      exact ⟨rfl, (h.rest b hbdirty fun j _ => hnone j).symm, hb⟩
  · intro j hj
    refine ⟨by simp [hj], fun c hc => ⟨fun hbc => ?_, rfl, Iff.rfl⟩⟩
    exact hnone j (hc.trans hbc.symm)
  · intro c hc
    obtain ⟨j, hj⟩ := h.cached c hc
    refine Or.inr ⟨j, ?_, hj⟩
    rintro rfl
    have hdirty := (h.buf j).dirty.mpr ⟨c, hc, hj⟩
    exact absurd (hclean.symm.trans hdirty) Bool.false_ne_true
  · intro c hc hfree
    refine h.rest c hc fun j hj => ?_
    have hjfree := hfree j (Finset.mem_insert_of_mem hj)
    simp only [hother hj] at hjfree
    exact hjfree
  · simp

theorem bread_hit (hfind : m.mru.find? (fun i => (m.bufs i).blockno = some b) = some i)
    (hbusy : (m.bufs i).busy = false) (hvalid : (m.bufs i).valid = true) :
    (bread b).run m = .ok i
      { m with bufs := update m.bufs i { m.bufs i with busy := true } } := by
  have hget : (bget b).run m = .ok i
      { m with bufs := update m.bufs i { m.bufs i with busy := true } } := by
    rw [bget, get_bind, hfind]
    simp [hbusy, setBuf]
  rw [bread, bind_ok hget, get_bind, if_neg (by simp [hvalid])]
  rfl

def victim (m : Machine) : Option (Fin NBUF) :=
  m.mru.reverse.find? fun i => !(m.bufs i).busy && !(m.bufs i).dirty

section Miss

variable (hfind : m.mru.find? (fun i => (m.bufs i).blockno = some b) = none)
include hfind

theorem bget_miss (hvictim : victim m = some i) :
    (bget b).run m = .ok i
      { m with
        bufs := update m.bufs i ⟨some b, true, false, false, (m.bufs i).data⟩ } := by
  rw [victim] at hvictim
  rw [bget, get_bind, hfind]
  simp only [hvictim]
  rfl

theorem bread_miss (hvictim : victim m = some i) (hb : b.toNat < FSSIZE) :
    (bread b).run m = .ok i
      { m with bufs := update m.bufs i ⟨some b, true, true, false, m.disk b⟩ } := by
  rw [bread, bind_ok (bget_miss hfind hvictim), get_bind, if_pos (by simp)]
  simp [iderw, setBuf, Nat.not_le.mpr hb]

theorem bread_incorrect (hvictim : victim m = some i) (hb : ¬ b.toNat < FSSIZE) :
    (bread b).run m = .error (.panic "incorrect blockno")
      { m with
        bufs := update m.bufs i ⟨some b, true, false, false, (m.bufs i).data⟩ } := by
  rw [bread, bind_ok (bget_miss hfind hvictim), get_bind, if_pos (by simp)]
  apply bind_error
  simp [iderw, Nat.not_lt.mp hb]

theorem bread_none (hvictim : victim m = none) :
    (bread b).run m = .error (.panic "bget: no buffers") m := by
  apply bind_error
  rw [victim] at hvictim
  rw [bget, get_bind, hfind]
  simp only [hvictim]
  rfl

end Miss

def Room (m : Machine) (dirty : Finset Word) (held : Finset (Fin NBUF)) (b : Word) : Prop :=
  (∃ i, (m.bufs i).blockno = some b) ∨ ∃ i ∉ held, ∀ c ∈ dirty, (m.bufs i).blockno ≠ some c

theorem bwrite_apply (hbusy : (m.bufs i).busy = true) (hi : (m.bufs i).blockno = some b)
    (hb : b.toNat < FSSIZE) :
    (bwrite i).run m = .ok ()
      { m with
        disk := update m.disk b (m.bufs i).data
        bufs := update m.bufs i { m.bufs i with valid := true, dirty := false }
        crashDisks := m.crashDisks ++ [update m.disk b (m.bufs i).data] } := by
  rw [bwrite, get_bind, if_neg (by simp [hbusy])]
  simp [setBuf, iderw, hbusy, hi, Nat.not_le.mpr hb]

variable (h : Cached m view dirty held)
include h

theorem Cached.victim_isSome
    (hroom : ∃ i ∉ held, ∀ c ∈ dirty, (m.bufs i).blockno ≠ some c) : victim m ≠ none := by
  obtain ⟨j, hheld, hclean⟩ := hroom
  intro hvictim
  have hj := List.find?_eq_none.mp hvictim j (List.mem_reverse.mpr (h.order j))
  have hbusy : (m.bufs j).busy = false := by
    rw [← Bool.not_eq_true, (h.buf j).busy]
    exact hheld
  have hdirty : (m.bufs j).dirty = false := by
    rw [← Bool.not_eq_true, (h.buf j).dirty]
    rintro ⟨c, hc, hjc⟩
    exact hclean c hc hjc
  exact hj (by simp [hbusy, hdirty])

theorem Cached.bread (hfree : ∀ j ∈ held, (m.bufs j).blockno ≠ some b) :
    Ends (bread b) m (Got m view dirty held b) fun _ m' =>
      m'.crashDisks = m.crashDisks ∧ ¬ (b.toNat < FSSIZE ∧ Room m dirty held b) := by
  cases hfind : m.mru.find? (fun i => (m.bufs i).blockno = some b) with
  | some i =>
    have hi : (m.bufs i).blockno = some b := by simpa using List.find?_some hfind
    have hheld : i ∉ held := fun hheld => hfree i hheld hi
    have hbusy : (m.bufs i).busy = false := by
      rw [← Bool.not_eq_true, (h.buf i).busy]
      exact hheld
    exact ends_of_ok (bread_hit hfind hbusy ((h.buf i).data b hi).1) (h.got_hit hi hheld)
  | none =>
    have hnone (j : Fin NBUF) : (m.bufs j).blockno ≠ some b := by
      simpa using List.find?_eq_none.mp hfind j (h.order j)
    cases hvictim : victim m with
    | some i =>
      have hi : (m.bufs i).busy = false ∧ (m.bufs i).dirty = false := by
        simpa using List.find?_some hvictim
      have hheld : i ∉ held := by
        rw [← (h.buf i).busy, hi.1]
        exact Bool.false_ne_true
      by_cases hb : b.toNat < FSSIZE
      · exact ends_of_ok (bread_miss hfind hvictim hb) (h.got_miss hnone hheld hi.2 hb)
      · exact ends_of_error (bread_incorrect hfind hvictim hb) ⟨rfl, fun hc => hb hc.1⟩
    | none =>
      refine ends_of_error (bread_none hfind hvictim) ⟨rfl, fun hc => ?_⟩
      obtain ⟨j, hj⟩ | hspare := hc.2
      · exact hnone j hj
      · exact h.victim_isSome hspare hvictim

theorem Cached.spare (hcard : dirty.card + held.card < NBUF) :
    ∃ i ∉ held, ∀ c ∈ dirty, (m.bufs i).blockno ≠ some c := by
  by_contra hnone
  push Not at hnone
  have hle : (Finset.univ \ held).card ≤ dirty.card := by
    apply Finset.card_le_card_of_injOn fun i => ((m.bufs i).blockno).getD 0
    · intro i hi
      obtain ⟨c, hc, hic⟩ := hnone i (by simpa using hi)
      simpa [hic] using hc
    · intro i hi j hj hij
      obtain ⟨c, -, hic⟩ := hnone i (by simpa using hi)
      obtain ⟨c', -, hjc⟩ := hnone j (by simpa using hj)
      have hcc : c = c' := by simpa [hic, hjc] using hij
      exact h.unique i j c hic (hcc ▸ hjc)
  rw [Finset.card_sdiff_of_subset (Finset.subset_univ _), Finset.card_univ, Fintype.card_fin] at hle
  omega

theorem Cached.setData (hheld : i ∈ held) (hi : (m.bufs i).blockno = some b) (data : DiskBlock) :
    Returns (setData i data) m fun _ m' => SameDisk m m' ∧
      Cached m' (update view b data) dirty held ∧
      ∀ j, (m'.bufs j).blockno = (m.bufs j).blockno := by
  refine ⟨(), _, rfl, ⟨rfl, rfl, rfl, rfl⟩, ?_, blockno_update rfl⟩
  refine h.change_kept rfl h.order rfl ⟨(h.buf i).busy, (h.buf i).dirty, fun c hc => ?_⟩ ?_ ?_ ?_
  · cases hi.symm.trans hc
    exact ⟨((h.buf i).data b hi).1, by simp, ((h.buf i).data b hi).2.2⟩
  · refine fun j hj => ⟨Iff.rfl, fun c hc => ⟨update_of_ne ?_ _ _, Iff.rfl⟩⟩
    rintro rfl
    exact hj (h.unique j i c hc hi)
  · exact fun c hc => Or.inl hc
  · intro c hc hfree
    have hcb : c ≠ b := fun hcb => hfree i hheld (hcb ▸ hi)
    rw [update_of_ne hcb]
    exact h.rest c hc hfree

theorem Cached.bwrite (hheld : i ∈ held) (hi : (m.bufs i).blockno = some b) :
    Returns (bwrite i) m fun _ m' => Wrote m b (view b) m' ∧ Cached m' view (dirty \ {b}) held ∧
      ∀ j, (m'.bufs j).blockno = (m.bufs j).blockno := by
  obtain ⟨-, hdata, hb⟩ := (h.buf i).data b hi
  refine ⟨(), _, bwrite_apply ((h.buf i).busy.mpr hheld) hi hb, ⟨by rw [hdata], rfl, rfl, rfl⟩, ?_,
    blockno_update rfl⟩
  refine h.change_kept rfl h.order rfl ⟨(h.buf i).busy, ?_, fun c hc => ?_⟩ ?_ ?_ ?_
  · apply iff_of_false Bool.false_ne_true
    rintro ⟨c, hc, hic⟩
    rw [Finset.mem_sdiff, Finset.mem_singleton] at hc
    exact hc.2 (Option.some.inj (hic.symm.trans hi))
  · exact ⟨rfl, ((h.buf i).data c hc).2⟩
  · refine fun j hj => ⟨Iff.rfl, fun c hc => ⟨rfl, ?_⟩⟩
    have hcb : c ≠ b := by
      rintro rfl
      exact hj (h.unique j i c hc hi)
    simp [hcb]
  · exact fun c hc => Or.inl (Finset.mem_sdiff.mp hc).1
  · intro c hc hfree
    have hcb : c ≠ b := fun hcb => hfree i hheld (hcb ▸ hi)
    have hclean : c ∉ dirty := fun hd => hc (by simp [hd, hcb])
    refine (h.rest c hclean hfree).trans ?_
    exact (update_of_ne hcb _ _).symm

theorem Cached.brelse (hheld : i ∈ held)
    (hi : (m.bufs i).blockno = some b) (hdisk : b ∉ dirty → view b = m.disk b) :
    Returns (brelse i) m fun _ m' => SameDisk m m' ∧ Cached m' view dirty (held \ {i}) ∧
      ∀ j, (m'.bufs j).blockno = (m.bufs j).blockno := by
  have hrun : (Fs.brelse i).run m = .ok ()
      { m with
        mru := i :: m.mru.erase i
        bufs := update m.bufs i { m.bufs i with busy := false } } := by
    rw [Fs.brelse, get_bind, if_neg (by simp [(h.buf i).busy.mpr hheld])]
    rfl
  refine ⟨(), _, hrun, ⟨rfl, rfl, rfl, rfl⟩, ?_, blockno_update rfl⟩
  refine h.change_kept rfl (fun j => ?_) rfl ⟨by simp, (h.buf i).dirty, (h.buf i).data⟩ ?_ ?_ ?_
  · by_cases hj : j = i
    · simp [hj]
    · exact List.mem_cons_of_mem _ ((List.mem_erase_of_ne hj).mpr (h.order j))
  · exact fun j hj => ⟨by simp [hj], fun c _ => ⟨rfl, Iff.rfl⟩⟩
  · exact fun c hc => Or.inl hc
  · intro c hc hfree
    by_cases hcb : c = b
    · rw [hcb] at hc ⊢
      exact hdisk hc
    · refine h.rest c hc fun j hj => ?_
      by_cases hji : j = i
      · rw [hji, hi]
        exact fun hbc => hcb (Option.some.inj hbc).symm
      · exact hfree j (by simp [hj, hji])

end Operations

end Xv6Prng.Fs
