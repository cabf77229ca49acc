import Xv6Prng.Library.ByteWords
import Xv6Prng.Library.Runs
import Xv6Prng.OpenFiles

/-!
# The system call `select`

`sys_select` of `sysfile.c` as a machine that stops before each call of `filereadable`,
`filewriteable`, `fileselect` or `fileclrsel`, and at `sleep`. One turn of each of its loops is
two steps, one for the read set and one for the write set. What the helpers answer, and when the
process is woken, is left to the kernel around it.

The two sets are values. They are stored when the call returns, the write set last: a caller that
passes one address for both finds that one.
-/

namespace Xv6Prng.Select

open Runs OpenFiles

/-- `1 << fd`; the processor takes the shift modulo 32. -/
def fdBit (x : ℕ) : Word := (1 : Word) <<< (x % 32)

def fdSet (x : ℕ) (set : Word) : Word := set ||| fdBit x

def fdIsset (x : ℕ) (set : Word) : Bool := set &&& fdBit x ≠ 0

inductive Mode
  | read
  | write
  deriving DecidableEq

/-- `proc->selid = 5` identifies a read, 6 a write. -/
def Mode.selid : Mode → Word
  | .read => 5
  | .write => 6

structure Args where
  nfds : ℤ
  readfds : Word
  writefds : Word

def Args.fds (a : Args) : Mode → Word
  | .read => a.readfds
  | .write => a.writefds

def Args.selected (a : Args) (x : ℕ) (m : Mode) : Bool := (x : ℤ) < a.nfds ∧ fdIsset x (a.fds m)

/-- Where the process is: in the loop that looks for a descriptor that is ready, in the loop that
registers, at `sleep`, in the loop that clears, or past the end. -/
inductive Pc
  | check (x : ℕ) (m : Mode)
  | register (x : ℕ) (m : Mode)
  | sleep
  | asleep
  | clear (x : ℕ) (m : Mode)
  | done
  deriving DecidableEq

structure Call where
  pc : Pc
  found : Bool
  selid : Word
  retreadfds : Word
  retwritefds : Word
  deriving DecidableEq

def Call.start (selid : Word) : Call := ⟨.check 0 .read, false, selid, 0, 0⟩

def Call.ret (c : Call) : Mode → Word
  | .read => c.retreadfds
  | .write => c.retwritefds

/-- What the caller finds; `same` says that it has passed one address for both sets. -/
def Call.seen (c : Call) (same : Bool) (m : Mode) : Word := if same then c.retwritefds else c.ret m

def Call.mark (c : Call) (x : ℕ) : Mode → Call
  | .read => { c with retreadfds := fdSet x c.retreadfds, found := true }
  | .write => { c with retwritefds := fdSet x c.retwritefds, found := true }

inductive Helper
  | filereadable
  | filewriteable
  | fileselect
  | fileclrsel
  deriving DecidableEq

def Mode.ready : Mode → Helper
  | .read => .filereadable
  | .write => .filewriteable

/-- What is found in `proc->ofile`, or past its end. -/
inductive Ptr (φ : Type)
  | null
  | file (f : φ)
  | wild

def Ptr.isNull {φ : Type} : Ptr φ → Bool
  | .null => true
  | _ => false

section Machine

variable {φ : Type} (a : Args) (ofile : ℕ → Ptr φ)

/-- The helper that is called at this point, and the pointer it is given. -/
def Call.request (c : Call) : Option (Helper × Ptr φ) :=
  match c.pc with
  | .check x m => if a.selected x m ∧ (ofile x).isNull = false then some (m.ready, ofile x) else none
  | .register x m => if a.selected x m then some (.fileselect, ofile x) else none
  | .clear x m => if a.selected x m then some (.fileclrsel, ofile x) else none
  | _ => none

def Call.reads (c : Call) : List ℕ :=
  match c.pc with
  | .check x .read | .clear x .read => if (x : ℤ) < a.nfds then [x] else []
  | .register x .read =>
    if (x : ℤ) < a.nfds then if a.selected x .read then [x, x] else [x] else []
  | .register x .write => if a.selected x .write then [x] else []
  | _ => []

def Mode.after (point : ℕ → Mode → Pc) (x : ℕ) : Mode → Pc
  | .read => point x .write
  | .write => point (x + 1) .read

/-- What follows when the helper has returned `r`; 0 stands for no call. -/
def Call.next (c : Call) (r : ℤ) : Call :=
  match c.pc with
  | .check x m =>
    if (x : ℤ) < a.nfds then
      { if 0 < r then c.mark x m else c with pc := m.after .check x }
    else { c with pc := if c.found then .done else .register 0 .read }
  | .register x m =>
    if (x : ℤ) < a.nfds then
      { c with
        selid := if a.selected x m then m.selid else c.selid
        pc := m.after .register x }
    else { c with pc := .sleep }
  | .sleep => { c with pc := .asleep }
  | .asleep => { c with pc := .clear 0 .read }
  | .clear x m =>
    if (x : ℤ) < a.nfds then { c with pc := m.after .clear x }
    else { c with pc := .check 0 .read }
  | .done => c

end Machine

variable {x : ℕ} {r : ℤ}

section Files

variable {φ : Type}

/-- `proc->ofile[x]`, where `beyond` is what lies behind the table. -/
def ofileAt (ofile : Fin NOFILE → Option φ) (beyond : ℕ → Ptr φ) (x : ℕ) : Ptr φ :=
  if h : x < NOFILE then
    match ofile ⟨x, h⟩ with
    | some f => .file f
    | none => .null
  else beyond x

structure Trace (φ : Type) where
  call : Call
  reads : List ℕ
  passed : List (Helper × Ptr φ)
  ready : List (ℕ × Mode)

def Trace.start (selid : Word) : Trace φ := ⟨.start selid, [], [], []⟩

def Trace.step (a : Args) (ofile : ℕ → Ptr φ) (s : Trace φ) (r : ℤ) : Trace φ :=
  match s.call.request a ofile with
  | some req =>
    { call := s.call.next a r
      reads := s.reads ++ s.call.reads a
      passed := s.passed ++ [req]
      ready := s.ready ++
        match s.call.pc with
        | .check x m => if 0 < r then [(x, m)] else []
        | _ => [] }
  | none => { s with call := s.call.next a 0, reads := s.reads ++ s.call.reads a }

def Returned (a : Args) (ofile : Fin NOFILE → Option φ) (s : Trace φ) (m : Mode) (set : Word) :
    Prop :=
  ∀ x < 32, fdIsset x set = true →
    a.selected x m = true ∧ (x, m) ∈ s.ready ∧
      ∃ h : x < NOFILE, (ofile ⟨x, h⟩).isSome = true

structure Safe (same : Bool) (a : Args) (ofile : Fin NOFILE → Option φ) (s : Trace φ) : Prop where
  reads : ∀ x ∈ s.reads, x < NOFILE
  passed : ∀ r ∈ s.passed, ∃ fd f, ofile fd = some f ∧ r.2 = .file f
  returned : s.call.pc = .done → ∀ m, Returned a ofile s m (s.call.seen same m)
  nonempty : s.call.pc = .done → ∃ m, s.call.seen same m ≠ 0

/-- The call when `n` of the helpers' answers have come in. -/
def traceAt (a : Args) (ofile : ℕ → Ptr φ) (selid : Word) (answers : ℕ → ℤ) : ℕ → Trace φ
  | 0 => .start selid
  | n + 1 => (traceAt a ofile selid answers n).step a ofile (answers n)

/-- The tests come in this order, and so do the calls of `fileselect`. -/
def rank (x : ℕ) : Mode → ℕ
  | .read => 2 * x
  | .write => 2 * x + 1

/-- A descriptor is found ready in the first turn of the loop. -/
def FoundFirst (a : Args) (ofile : Fin NOFILE → Option φ) (answers : ℕ → ℤ) : Prop :=
  ∃ x m, a.selected x m = true ∧ (∃ h : x < NOFILE, (ofile ⟨x, h⟩).isSome = true) ∧
    0 < answers (rank x m)

theorem fdIsset_eq (x : ℕ) (set : Word) : fdIsset x set = set.getLsbD (x % 32) := by
  have hbit : fdBit x = BitVec.twoPow 32 (x % 32) := by simp [fdBit, BitVec.twoPow]
  have hlt : x % 32 < 32 := Nat.mod_lt _ (by decide)
  rw [fdIsset, hbit, BitVec.and_twoPow]
  cases h : set.getLsbD (x % 32)
  · simp
  · simp only [if_true, decide_eq_true_eq]
    intro hzero
    have := congrArg (fun v => BitVec.getLsbD v (x % 32)) hzero
    simp [hlt] at this

theorem fdIsset_zero (x : ℕ) : fdIsset x 0 = false := by simp [fdIsset_eq]

theorem exists_fdIsset {set : Word} (h : set ≠ 0) : ∃ x < 32, fdIsset x set = true := by
  by_contra hnone
  refine h (BitVec.eq_of_getLsbD_eq fun i hi => ?_)
  have hnot : ¬ fdIsset i set = true := fun hset => hnone ⟨i, hi, hset⟩
  rw [fdIsset_eq, Nat.mod_eq_of_lt hi, Bool.not_eq_true] at hnot
  simpa using hnot

theorem fdIsset_fdSet (x y : ℕ) (set : Word) (hx : x < 32) (hy : y < 32) :
    fdIsset x (fdSet y set) = true ↔ x = y ∨ fdIsset x set = true := by
  have hbit : fdBit y = BitVec.twoPow 32 (y % 32) := by simp [fdBit, BitVec.twoPow]
  rw [fdIsset_eq, fdIsset_eq, fdSet, hbit, BitVec.getLsbD_or, Nat.mod_eq_of_lt hx,
    Nat.mod_eq_of_lt hy, BitVec.getLsbD_twoPow]
  simp only [hy, decide_true, Bool.true_and, Bool.or_eq_true, decide_eq_true_eq]
  grind

theorem fdSet_ne_zero (x : ℕ) (set : Word) (hx : x < 32) : fdSet x set ≠ 0 := by
  intro hzero
  have h := (fdIsset_fdSet x x set hx hx).mpr (.inl rfl)
  rw [hzero, fdIsset_zero] at h
  exact Bool.noConfusion h

variable {a : Args} {ofile : Fin NOFILE → Option φ} {beyond : ℕ → Ptr φ} {s : Trace φ}

structure Opened (a : Args) (ofile : Fin NOFILE → Option φ) : Prop where
  nfds : a.nfds ≤ NOFILE
  isSome : ∀ x m (h : x < NOFILE), a.selected x m = true → (ofile ⟨x, h⟩).isSome = true

structure Sound (a : Args) (ofile : Fin NOFILE → Option φ) (s : Trace φ) : Prop where
  reads : ∀ x ∈ s.reads, x < NOFILE
  passed : ∀ r ∈ s.passed, ∃ fd f, ofile fd = some f ∧ r.2 = .file f
  returned : ∀ m, Returned a ofile s m (s.call.ret m)
  found : s.call.found = true → s.call.retreadfds ≠ 0 ∨ s.call.retwritefds ≠ 0
  done : s.call.pc = .done → s.call.found = true

variable {m : Mode}

theorem lt_of_selected (hsel : a.selected x m = true) : (x : ℤ) < a.nfds := by
  simp only [Args.selected, Bool.decide_and, Bool.and_eq_true, decide_eq_true_eq] at hsel
  exact hsel.1

theorem selected_lt (hn : a.nfds ≤ NOFILE) (h : a.selected x m = true) : x < NOFILE := by
  have := lt_of_selected h
  omega

theorem ofileAt_selected (ha : Opened a ofile) (beyond : ℕ → Ptr φ) (h : a.selected x m = true) :
    ∃ fd f, ofile fd = some f ∧ ofileAt ofile beyond x = .file f ∧ fd.val = x := by
  have hx := selected_lt ha.nfds h
  obtain ⟨f, hf⟩ := Option.isSome_iff_exists.mp (ha.isSome x m hx h)
  exact ⟨⟨x, hx⟩, f, hf, by simp [ofileAt, hx, hf], rfl⟩

theorem isNull_ofileAt (hx : x < NOFILE) :
    (ofileAt ofile beyond x).isNull = false ↔ (ofile ⟨x, hx⟩).isSome = true := by
  rw [ofileAt, dif_pos hx]
  cases ofile ⟨x, hx⟩ <;> simp [Ptr.isNull]

def Pc.checking : Pc → Bool
  | .check _ _ | .done => true
  | _ => false

theorem request_file (hn : a.nfds ≤ NOFILE) {c : Call} {r : Helper × Ptr φ}
    (hok : Opened a ofile ∨ c.pc.checking = true)
    (h : c.request a (ofileAt ofile beyond) = some r) :
    ∃ fd f, ofile fd = some f ∧ r.2 = .file f := by
  have hfile (ha : Opened a ofile) (x : ℕ) (m : Mode) (hsel : a.selected x m = true) :
      ∃ fd f, ofile fd = some f ∧ ofileAt ofile beyond x = .file f := by
    obtain ⟨fd, f, hfd, hptr, _⟩ := ofileAt_selected ha beyond hsel
    exact ⟨fd, f, hfd, hptr⟩
  unfold Call.request at h
  split at h
  · next x m _ =>
    split_ifs at h with hsel
    rw [← Option.some.inj h]
    have hx := selected_lt hn hsel.1
    obtain ⟨f, hf⟩ := Option.isSome_iff_exists.mp ((isNull_ofileAt hx).mp hsel.2)
    exact ⟨_, f, hf, by simp [ofileAt, hx, hf]⟩
  · next x m hpc =>
    split_ifs at h with hsel
    rw [← Option.some.inj h]
    exact hfile (hok.resolve_right (by simp [hpc, Pc.checking])) x m hsel
  · next x m hpc =>
    split_ifs at h with hsel
    rw [← Option.some.inj h]
    exact hfile (hok.resolve_right (by simp [hpc, Pc.checking])) x m hsel
  · cases h

theorem reads_lt (hn : a.nfds ≤ NOFILE) {c : Call} (h : x ∈ c.reads a) : x < NOFILE := by
  unfold Call.reads at h
  split at h
  · split_ifs at h <;> simp at h
    omega
  · split_ifs at h <;> simp at h
    omega
  · split_ifs at h <;> simp at h <;> omega
  · split_ifs at h with hsel
    · rw [List.mem_singleton.mp h]
      exact selected_lt hn hsel
    · simp at h
  · simp at h

theorem next_ret (c : Call) (hpc : c.pc = .check x m) (hr : 0 < r)
    (hx : (x : ℤ) < a.nfds) (m' : Mode) :
    (c.next a r).ret m' = if m' = m then fdSet x (c.ret m) else c.ret m' := by
  cases m <;> cases m' <;> simp [Call.next, hpc, hx, hr, Call.ret, Call.mark]

theorem next_keeps (c : Call) (h : r ≤ 0 ∨ ∀ x m, c.pc ≠ .check x m) :
    (c.next a r).ret = c.ret ∧ (c.next a r).found = c.found := by
  have hret : ∀ c' : Call, c'.retreadfds = c.retreadfds → c'.retwritefds = c.retwritefds →
      c'.ret = c.ret := by
    intro c' hr hw
    funext m
    cases m
    · exact hr
    · exact hw
  unfold Call.next
  split
  · next x m hpc =>
    obtain h | h := h
    · rw [if_neg (by omega : ¬ 0 < r)]
      split <;> exact ⟨hret _ rfl rfl, rfl⟩
    · exact absurd hpc (h x m)
  · split <;> exact ⟨hret _ rfl rfl, rfl⟩
  · exact ⟨hret _ rfl rfl, rfl⟩
  · exact ⟨hret _ rfl rfl, rfl⟩
  · split <;> exact ⟨hret _ rfl rfl, rfl⟩
  · exact ⟨rfl, rfl⟩

theorem after_ne_done {point : ℕ → Mode → Pc} (hpoint : ∀ x m, point x m ≠ .done) (x : ℕ)
    (m : Mode) : m.after point x ≠ .done := by
  cases m
  · exact hpoint x .write
  · exact hpoint (x + 1) .read

theorem next_done (c : Call) (h : (c.next a r).pc = .done) (hdone : c.pc ≠ .done) :
    c.found = true := by
  unfold Call.next at h
  split at h
  · split at h
    · exact absurd h (after_ne_done (by simp) _ _)
    · simp only at h
      split at h
      · assumption
      · cases h
  · split at h
    · exact absurd h (after_ne_done (by simp) _ _)
    · cases h
  · cases h
  · cases h
  · split at h
    · exact absurd h (after_ne_done (by simp) _ _)
    · cases h
  · exact absurd h hdone

theorem Sound.keep (h : Sound a ofile s) (hn : a.nfds ≤ NOFILE)
    (hkeep : r ≤ 0 ∨ ∀ x m, s.call.pc ≠ .check x m) (passed : List (Helper × Ptr φ))
    (hpassed : ∀ q ∈ passed, ∃ fd f, ofile fd = some f ∧ q.2 = .file f) :
    Sound a ofile ⟨s.call.next a r, s.reads ++ s.call.reads a, s.passed ++ passed, s.ready⟩ := by
  obtain ⟨hret, hfound⟩ := next_keeps (a := a) s.call hkeep
  constructor
  · intro x hx
    obtain hx | hx := List.mem_append.mp hx
    · exact h.reads x hx
    · exact reads_lt hn hx
  · intro q hq
    obtain hq | hq := List.mem_append.mp hq
    · exact h.passed q hq
    · exact hpassed q hq
  · intro m x hx hset
    rw [hret] at hset
    exact h.returned m x hx hset
  · intro hf
    rw [hfound] at hf
    have hread : (s.call.next a r).retreadfds = s.call.retreadfds := congrFun hret .read
    have hwrite : (s.call.next a r).retwritefds = s.call.retwritefds := congrFun hret .write
    rw [hread, hwrite]
    exact h.found hf
  · intro hdone
    rw [hfound]
    by_cases hold : s.call.pc = .done
    · exact h.done hold
    · exact next_done s.call hdone hold

theorem Sound.mark (h : Sound a ofile s) (hn : a.nfds ≤ NOFILE) (hr : 0 < r)
    (hpc : s.call.pc = .check x m) (hsel : a.selected x m = true) {q : Helper × Ptr φ}
    (hopen : ∃ h : x < NOFILE, (ofile ⟨x, h⟩).isSome = true)
    (hq : ∃ fd f, ofile fd = some f ∧ q.2 = .file f) :
    Sound a ofile ⟨s.call.next a r, s.reads ++ s.call.reads a, s.passed ++ [q],
      s.ready ++ [(x, m)]⟩ := by
  have hx := selected_lt hn hsel
  have hx32 : x < 32 := Nat.lt_trans hx (by decide)
  have hlt := lt_of_selected hsel
  have hret := next_ret s.call hpc hr hlt
  have hself : (s.call.next a r).ret m ≠ 0 := by
    rw [hret m, if_pos rfl]
    exact fdSet_ne_zero x _ hx32
  constructor
  · intro y hy
    obtain hy | hy := List.mem_append.mp hy
    · exact h.reads y hy
    · exact reads_lt hn hy
  · intro q' hq'
    obtain hq' | hq' := List.mem_append.mp hq'
    · exact h.passed q' hq'
    · rw [List.mem_singleton.mp hq']
      exact hq
  · intro m' y hy hset
    have hold : fdIsset y (s.call.ret m') = true → a.selected y m' = true ∧
        (y, m') ∈ s.ready ++ [(x, m)] ∧ ∃ hy : y < NOFILE, (ofile ⟨y, hy⟩).isSome = true := by
      intro hset
      obtain ⟨hs, hmem, hopen⟩ := h.returned m' y hy hset
      exact ⟨hs, List.mem_append_left _ hmem, hopen⟩
    rw [hret m'] at hset
    split at hset
    · next hm =>
      subst hm
      obtain rfl | hset := (fdIsset_fdSet y x _ hy hx32).mp hset
      · exact ⟨hsel, List.mem_append_right _ (List.mem_singleton.mpr rfl), hopen⟩
      · exact hold hset
    · exact hold hset
  · intro _
    cases m
    · exact .inl hself
    · exact .inr hself
  · intro hdone
    have hnext : (s.call.next a r).pc = m.after .check x := by
      simp only [Call.next, hpc, if_pos hlt]
    rw [hnext] at hdone
    exact absurd hdone (after_ne_done (by simp) x m)

theorem Sound.step (h : Sound a ofile s) (hn : a.nfds ≤ NOFILE)
    (hok : Opened a ofile ∨ s.call.pc.checking = true) (r : ℤ) :
    Sound a ofile (s.step a (ofileAt ofile beyond) r) := by
  unfold Trace.step
  cases hreq : s.call.request a (ofileAt ofile beyond) with
  | none =>
    have hkeep := h.keep hn (.inl (Int.le_refl 0)) [] (by simp)
    simpa using hkeep
  | some q =>
    have hq := request_file hn hok hreq
    dsimp only
    split
    · next x m hpc =>
      split_ifs with hr
      · simp only [Call.request, hpc] at hreq
        split_ifs at hreq with hsel
        have hx := selected_lt hn hsel.1
        exact h.mark hn hr hpc hsel.1 ⟨hx, (isNull_ofileAt hx).mp hsel.2⟩ hq
      · have hkeep := h.keep hn (.inl (by omega : r ≤ 0)) [q] (by simpa using hq)
        simpa using hkeep
    · next hpc =>
      have hkeep := h.keep hn (r := r) (.inr fun x m hc => hpc x m hc) [q] (by simpa using hq)
      simpa using hkeep

theorem Sound.start (selid : Word) : Sound a ofile (.start selid) where
  reads := by simp [Trace.start]
  passed := by simp [Trace.start]
  returned m x _ hset := by
    have hzero : (Trace.start selid : Trace φ).call.ret m = 0 := by cases m <;> rfl
    rw [hzero, fdIsset_zero] at hset
    exact Bool.noConfusion hset
  found hf := Bool.noConfusion hf
  done hd := absurd hd (by simp [Trace.start, Call.start])

theorem Sound.safe (h : Sound a ofile s) : Safe false a ofile s where
  reads := h.reads
  passed := h.passed
  returned _ := h.returned
  nonempty hd := by
    rcases h.found (h.done hd) with hread | hwrite
    · exact ⟨.read, hread⟩
    · exact ⟨.write, hwrite⟩

section Runs

variable {file : ℕ → Ptr φ} {selid : Word} {answers : ℕ → ℤ} {n : ℕ} {m : Mode}

theorem step_reads (s : Trace φ) (r : ℤ) :
    (s.step a file r).reads = s.reads ++ s.call.reads a := by
  unfold Trace.step
  split <;> rfl

variable (a file) in
theorem step_call (s : Trace φ) (r : ℤ) : ∃ r', (s.step a file r).call = s.call.next a r' := by
  unfold Trace.step
  split
  · exact ⟨r, rfl⟩
  · exact ⟨0, rfl⟩

theorem rank_inj {x' : ℕ} {m' : Mode} (h : rank x m = rank x' m') : x = x' ∧ m = m' := by
  cases m <;> cases m' <;> simp only [rank] at h <;> simp <;> omega

theorem exists_rank (n : ℕ) : ∃ x m, n = rank x m := by
  rcases Nat.even_or_odd' n with ⟨x, rfl | rfl⟩
  · exact ⟨x, .read, rfl⟩
  · exact ⟨x, .write, rfl⟩

/-- A loop that starts after `n` steps gets to its turn for `x` and `m`. -/
theorem traceAt_loop {point : ℕ → Mode → Pc}
    (hnext : ∀ (c : Call) x m r, c.pc = point x m → (x : ℤ) < a.nfds →
      (c.next a r).pc = m.after point x)
    (h : (traceAt a file selid answers n).call.pc = point 0 .read)
    (hx : rank x m ≤ 2 * a.nfds.toNat) :
    (traceAt a file selid answers (n + rank x m)).call.pc = point x m := by
  have hturn (x : ℕ) (m : Mode) (hlt : (x : ℤ) < a.nfds)
      (hpc : (traceAt a file selid answers (n + rank x m)).call.pc = point x m) :
      (traceAt a file selid answers (n + rank x m + 1)).call.pc = m.after point x := by
    obtain ⟨r', hr'⟩ := step_call a file (traceAt a file selid answers (n + rank x m))
      (answers (n + rank x m))
    rw [traceAt, hr']
    exact hnext _ x m r' hpc hlt
  induction x generalizing m with
  | zero =>
    cases m with
    | read => exact h
    | write =>
      simp only [rank] at hx
      exact hturn 0 .read (by omega) h
  | succ x ih =>
    have hprev : (traceAt a file selid answers (n + rank (x + 1) .read)).call.pc =
        point (x + 1) .read := by
      cases m <;> simp only [rank] at hx <;>
        exact hturn x .write (by omega) (ih (by simp only [rank]; omega))
    cases m with
    | read => exact hprev
    | write =>
      simp only [rank] at hx
      exact hturn (x + 1) .read (by omega) hprev

theorem next_check (c : Call) (x : ℕ) (m : Mode) (r : ℤ) (hpc : c.pc = .check x m)
    (hx : (x : ℤ) < a.nfds) : (c.next a r).pc = m.after .check x := by
  simp only [Call.next, hpc, if_pos hx]

theorem next_register (c : Call) (x : ℕ) (m : Mode) (r : ℤ) (hpc : c.pc = .register x m)
    (hx : (x : ℤ) < a.nfds) : (c.next a r).pc = m.after .register x := by
  simp only [Call.next, hpc, if_pos hx]

theorem traceAt_check (hx : rank x m ≤ 2 * a.nfds.toNat) :
    (traceAt a file selid answers (rank x m)).call.pc = .check x m := by
  have hloop : (traceAt a file selid answers (0 + rank x m)).call.pc = .check x m :=
    traceAt_loop next_check rfl hx
  rwa [Nat.zero_add] at hloop

theorem step_found {s : Trace φ} (hpc : s.call.pc = .check x m) (hx : (x : ℤ) < a.nfds) (r : ℤ) :
    (s.step a file r).call.found = true ↔ s.call.found = true ∨
      a.selected x m = true ∧ (file x).isNull = false ∧ 0 < r := by
  by_cases hreq : a.selected x m = true ∧ (file x).isNull = false
  · by_cases hr : 0 < r
    · cases m <;> simp [Trace.step, Call.request, Call.next, Call.mark, hpc, hreq, hx, hr]
    · simp [Trace.step, Call.request, Call.next, hpc, hreq, hx, hr]
  · have hnot : ¬ (a.selected x m = true ∧ (file x).isNull = false ∧ 0 < r) :=
      fun h => hreq ⟨h.1, h.2.1⟩
    simp [Trace.step, Call.request, Call.next, hpc, hreq, hx, hnot]

theorem found_iff (hn : n ≤ 2 * a.nfds.toNat) :
    (traceAt a file selid answers n).call.found = true ↔
      ∃ x m, rank x m < n ∧ a.selected x m = true ∧ (file x).isNull = false ∧
        0 < answers (rank x m) := by
  induction n with
  | zero => simp [traceAt, Trace.start, Call.start]
  | succ n ih =>
    obtain ⟨x, m, rfl⟩ := exists_rank n
    have hx : (x : ℤ) < a.nfds := by
      cases m <;> simp only [rank] at hn <;> omega
    rw [traceAt, step_found (traceAt_check (by omega)) hx, ih (by omega)]
    constructor
    · rintro (⟨y, my, hlt, hy⟩ | hready)
      · exact ⟨y, my, by omega, hy⟩
      · exact ⟨x, m, Nat.lt_succ_self _, hready⟩
    · rintro ⟨y, my, hlt, hy⟩
      rcases Nat.lt_succ_iff_lt_or_eq.mp hlt with hlt | heq
      · exact .inl ⟨y, my, hlt, hy⟩
      · obtain ⟨rfl, rfl⟩ := rank_inj heq
        exact .inr hy

theorem rank_lt_of_selected (hsel : a.selected x m = true) : rank x m < 2 * a.nfds.toNat := by
  have hx := lt_of_selected hsel
  cases m <;> simp only [rank] <;> omega

theorem foundFirst_iff (hn : a.nfds ≤ NOFILE) :
    (traceAt a (ofileAt ofile beyond) selid answers (2 * a.nfds.toNat)).call.found = true ↔
      FoundFirst a ofile answers := by
  rw [found_iff le_rfl]
  constructor
  · rintro ⟨x, m, -, hsel, hopen, hr⟩
    have hx := selected_lt hn hsel
    exact ⟨x, m, hsel, ⟨hx, (isNull_ofileAt hx).mp hopen⟩, hr⟩
  · rintro ⟨x, m, hsel, ⟨hx, hopen⟩, hr⟩
    exact ⟨x, m, rank_lt_of_selected hsel, hsel, (isNull_ofileAt hx).mpr hopen, hr⟩

variable (a file selid answers) in
theorem traceAt_end : (traceAt a file selid answers (2 * a.nfds.toNat + 1)).call.pc =
    if (traceAt a file selid answers (2 * a.nfds.toNat)).call.found then .done
    else .register 0 .read := by
  have hpc : (traceAt a file selid answers (2 * a.nfds.toNat)).call.pc =
      .check a.nfds.toNat .read := traceAt_check (m := .read) le_rfl
  have hlast : ¬ ((a.nfds.toNat : ℕ) : ℤ) < a.nfds := by omega
  obtain ⟨r', hr'⟩ := step_call a file (traceAt a file selid answers (2 * a.nfds.toNat))
    (answers (2 * a.nfds.toNat))
  rw [traceAt, hr']
  simp only [Call.next, hpc, if_neg hlast]

theorem checking_of_foundFirst (hn : a.nfds ≤ NOFILE) (h : FoundFirst a ofile answers) (n : ℕ) :
    (traceAt a (ofileAt ofile beyond) selid answers n).call.pc.checking = true := by
  by_cases hle : n ≤ 2 * a.nfds.toNat
  · obtain ⟨x, m, rfl⟩ := exists_rank n
    rw [traceAt_check (by omega)]
    rfl
  · obtain ⟨k, rfl⟩ := Nat.exists_eq_add_of_lt (Nat.lt_of_not_le hle)
    have hdone : (traceAt a (ofileAt ofile beyond) selid answers
        (2 * a.nfds.toNat + k + 1)).call.pc = .done := by
      induction k with
      | zero => rw [Nat.add_zero, traceAt_end, if_pos ((foundFirst_iff hn).mpr h)]
      | succ k ih =>
        have hpc := ih (by omega)
        rw [← Nat.add_assoc, traceAt]
        simp only [Trace.step, Call.request, Call.next, hpc]
    rw [hdone]
    rfl

theorem sound_traceAt (hn : a.nfds ≤ NOFILE) (hok : Opened a ofile ∨ FoundFirst a ofile answers)
    (n : ℕ) : Sound a ofile (traceAt a (ofileAt ofile beyond) selid answers n) := by
  induction n with
  | zero => exact .start selid
  | succ n ih => exact ih.step hn (hok.imp id fun h => checking_of_foundFirst hn h n) _

theorem nfds_le_of_reads
    (h : ∀ n, ∀ x ∈ (traceAt a file selid answers n).reads, x < NOFILE) : a.nfds ≤ NOFILE := by
  by_contra hlt
  have hlt : (16 : ℤ) < a.nfds := lt_of_not_ge hlt
  have hpc : (traceAt a file selid answers (rank 16 .read)).call.pc = .check 16 .read :=
    traceAt_check (by simp only [rank]; omega)
  refine absurd (h (rank 16 .read + 1) 16 ?_) (by decide)
  rw [traceAt, step_reads, Call.reads, hpc]
  simp [hlt]

theorem open_of_passed (hn : a.nfds ≤ NOFILE) (hfound : ¬ FoundFirst a ofile answers)
    (h : ∀ n, ∀ r ∈ (traceAt a (ofileAt ofile beyond) selid answers n).passed,
      ∃ fd f, ofile fd = some f ∧ r.2 = .file f) : Opened a ofile := by
  refine ⟨hn, fun x m hx hsel => ?_⟩
  have hstart := traceAt_end a (ofileAt ofile beyond) selid answers
  rw [if_neg (mt (foundFirst_iff hn).mp hfound)] at hstart
  have hpc := traceAt_loop next_register hstart (rank_lt_of_selected hsel).le
  obtain ⟨fd, f, -, hfile⟩ := h (2 * a.nfds.toNat + 1 + rank x m + 1)
    (.fileselect, ofileAt ofile beyond x) (by
      rw [traceAt, Trace.step]
      simp [Call.request, hpc, hsel])
  have hnull : (ofileAt ofile beyond x).isNull = false := by
    rw [show ofileAt ofile beyond x = .file f from hfile]
    rfl
  exact (isNull_ofileAt hx).mp hnull

theorem mem_ready (h : (x, m) ∈ (traceAt a file selid answers n).ready) :
    ∃ k, (traceAt a file selid answers k).call.pc = .check x m ∧ 0 < answers k := by
  induction n with
  | zero => cases h
  | succ n ih =>
    rw [traceAt, Trace.step] at h
    split at h
    · rcases List.mem_append.mp h with h | h
      · exact ih h
      · split at h
        · next hpc =>
          split_ifs at h with hr
          · cases List.mem_singleton.mp h
            exact ⟨n, hpc, hr⟩
          · cases h
        · cases h
    · exact ih h

/-- With one address for both sets, a call that has something to select is not safe. -/
theorem not_selected_of_safe (hsame : a.readfds = a.writefds)
    (h : ∀ answers n, Safe true a ofile (traceAt a (ofileAt ofile beyond) selid answers n)) :
    a.nfds ≤ NOFILE ∧ ∀ x m, a.selected x m = false := by
  have hn := nfds_le_of_reads fun n => (h (fun _ => 0) n).reads
  refine ⟨hn, fun x m => ?_⟩
  by_contra hsel
  have hopen : Opened a ofile := open_of_passed hn (fun ⟨_, _, _, _, hr⟩ => lt_irrefl _ hr)
    fun n => (h (fun _ => 0) n).passed
  have hread : a.selected x .read = true := by
    cases m with
    | read => exact Bool.eq_true_of_not_eq_false hsel
    | write =>
      rw [Args.selected, Args.fds, hsame]
      exact Bool.eq_true_of_not_eq_false hsel
  have hx := selected_lt hn hread
  -- only the test of `x` for reading answers that it is ready
  have hsafe := h (fun k => if k = rank x .read then 1 else 0) (2 * a.nfds.toNat + 1)
  have hfound : FoundFirst a ofile (fun k => if k = rank x .read then 1 else 0) :=
    ⟨x, .read, hread, ⟨hx, hopen.isSome x .read hx hread⟩, by simp⟩
  have hdone := traceAt_end a (ofileAt ofile beyond) selid
    fun k => if k = rank x .read then 1 else 0
  rw [if_pos ((foundFirst_iff hn).mpr hfound)] at hdone
  obtain ⟨m', hne⟩ := hsafe.nonempty hdone
  obtain ⟨y, hy, hset⟩ := exists_fdIsset hne
  obtain ⟨k, hpc, hk⟩ := mem_ready (hsafe.returned hdone .write y hy hset).2.1
  split_ifs at hk with hkx
  · rw [hkx, traceAt_check (rank_lt_of_selected hread).le] at hpc
    cases hpc
  · exact lt_irrefl _ hk

theorem Sound.not_done {s : Trace φ} (hs : Sound a ofile s)
    (hnone : ∀ x m, a.selected x m = false) : s.call.pc ≠ .done := by
  intro hdone
  have hempty (m : Mode) : s.call.ret m = 0 := by
    by_contra hne
    obtain ⟨x, hx, hset⟩ := exists_fdIsset hne
    exact Bool.noConfusion ((hnone x m).symm.trans (hs.returned m x hx hset).1)
  exact (hs.found (hs.done hdone)).elim (fun hne => hne (hempty .read))
    fun hne => hne (hempty .write)

end Runs

def onlyConsole (fd : Fin NOFILE) : Option Unit := if fd.val = 0 then some () else none

end Files

end Xv6Prng.Select
