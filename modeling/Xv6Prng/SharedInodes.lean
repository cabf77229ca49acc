import Xv6Prng.InodeCache
import Xv6Prng.Library.Runs

/-!
# The inode cache with many processes

`iget`, `idup`, `ilock`, `iunlock`, `iput` and `ialloc` of `fs.c`, called by any number of
processes. A step is a section under `icache.lock`, or one use of the buffer that holds the
inode on the disk. `iput` lets go of `icache.lock` while it truncates and frees the inode, and
everybody else goes on meanwhile.

A process duplicates, locks and drops only references that it has obtained and not dropped, it
changes an inode only while it has it locked, and it does not drop an inode that it has locked.

Nothing keeps `iget` from finding an inode that `iput` is freeing. `Sound c` is the invariant of
every run for `c := False`, and for `c := True` that of the runs in which this does not happen.
-/

namespace Xv6Prng.SharedInodes

open Runs FileSys Function

abbrev Key := Word × Word

structure Entry where
  key : Key
  ref : ℕ
  busy : Bool
  valid : Bool
  copy : Dinode

/-- Points of `ilock`, of the part of `iput` that frees the inode, and of `ialloc`. -/
inductive Pc
  | user
  | ilock (k : Fin NINODE)
  | load (k : Fin NINODE)
  | itrunc (k : Fin NINODE)
  | ifree (k : Fin NINODE)
  | drop (k : Fin NINODE)
  | iget (key : Key)
  deriving DecidableEq

structure Proc where
  refs : List (Fin NINODE)
  locked : Fin NINODE → Bool
  pc : Pc

structure System (n : ℕ) where
  icache : Fin NINODE → Entry
  disk : Key → Dinode
  procs : Fin n → Proc
  panic : Bool

/-- The calls of a process, its work on an inode that it has locked, and its next step inside a
call. -/
inductive Action (n : ℕ)
  | iget (p : Fin n) (key : Key)
  | idup (p : Fin n) (k : Fin NINODE)
  | ilock (p : Fin n) (k : Fin NINODE)
  | iunlock (p : Fin n) (k : Fin NINODE)
  | iput (p : Fin n) (k : Fin NINODE)
  | ialloc (p : Fin n) (key : Key) (type : Short)
  | modify (p : Fin n) (k : Fin NINODE) (d : Dinode)
  | iupdate (p : Fin n) (k : Fin NINODE)
  | step (p : Fin n)

namespace System

variable {n : ℕ} (s : System n) (p : Fin n)

def setEntry (k : Fin NINODE) (x : Entry) : System n :=
  { s with icache := Function.update s.icache k x }

def set (x : Proc) : System n := { s with procs := Function.update s.procs p x }

def goto (pc : Pc) : System n := s.set p { s.procs p with pc := pc }

def writeDisk (key : Key) (d : Dinode) : System n :=
  { s with disk := Function.update s.disk key d }

def obtain (k : Fin NINODE) : System n :=
  s.set p { s.procs p with refs := (s.procs p).refs ++ [k], pc := .user }

def cached (key : Key) : Option (Fin NINODE) :=
  (List.finRange NINODE).find? fun k => 0 < (s.icache k).ref ∧ (s.icache k).key = key

def empty : Option (Fin NINODE) := (List.finRange NINODE).find? fun k => (s.icache k).ref = 0

def iget (key : Key) : System n :=
  match s.cached key with
  | some k => (s.setEntry k { s.icache k with ref := (s.icache k).ref + 1 }).obtain p k
  | none =>
    match s.empty with
    | none => { s with panic := true }
    | some k => (s.setEntry k { s.icache k with
        key := key, ref := 1, busy := false, valid := false }).obtain p k

def idup (k : Fin NINODE) : System n :=
  (s.setEntry k { s.icache k with ref := (s.icache k).ref + 1 }).obtain p k

def unref (k : Fin NINODE) (x : Entry) : System n :=
  (s.setEntry k { x with ref := x.ref - 1 }).set p
    { s.procs p with refs := (s.procs p).refs.erase k, pc := .user }

def iput (k : Fin NINODE) : System n :=
  let x := s.icache k
  if x.ref = 1 ∧ x.valid = true ∧ x.copy.nlink = 0 then
    if x.busy then { s with panic := true }
    else (s.setEntry k { x with busy := true }).goto p (.itrunc k)
  else s.unref p k x

def ialloc (key : Key) (type : Short) : System n :=
  if (s.disk key).type = 0 then
    (s.writeDisk key ⟨type, 0, 0, 0, 0, fun _ => 0⟩).goto p (.iget key)
  else s

def put (k : Fin NINODE) (d : Dinode) : System n :=
  (s.setEntry k { s.icache k with copy := d }).writeDisk (s.icache k).key d

def step : System n :=
  match (s.procs p).pc with
  | .user => s
  | .ilock k =>
    let x := s.icache k
    if x.busy then s else (s.setEntry k { x with busy := true }).goto p (.load k)
  | .load k =>
    let x := s.icache k
    let s' := s.set p
      { s.procs p with locked := Function.update (s.procs p).locked k true, pc := .user }
    if x.valid then s'
    else
      let d := s.disk x.key
      if d.type = 0 then { s with panic := true }
      else s'.setEntry k { x with valid := true, copy := d }
  | .itrunc k => (s.put k (s.icache k).copy.cleared).goto p (.ifree k)
  | .ifree k => (s.put k { (s.icache k).copy with type := 0 }).goto p (.drop k)
  | .drop k => s.unref p k { s.icache k with busy := false, valid := false }
  | .iget key => s.iget p key

def call : Action n → System n
  | .iget p key => s.iget p key
  | .idup p k => if k ∈ (s.procs p).refs then s.idup p k else s
  | .ilock p k =>
    if k ∈ (s.procs p).refs then
      if (s.icache k).ref < 1 then { s with panic := true } else s.goto p (.ilock k)
    else s
  | .iunlock p k =>
    if (s.procs p).locked k then
      let x := s.icache k
      if x.busy = false ∨ x.ref < 1 then { s with panic := true }
      else (s.setEntry k { x with busy := false }).set p
        { s.procs p with locked := Function.update (s.procs p).locked k false }
    else s
  | .iput p k =>
    if k ∈ (s.procs p).refs ∧ (s.procs p).locked k = false then s.iput p k else s
  | .ialloc p key type => s.ialloc p key type
  | .modify p k d =>
    if (s.procs p).locked k ∧ d.type = (s.icache k).copy.type then
      s.setEntry k { s.icache k with copy := d }
    else s
  | .iupdate p k =>
    if (s.procs p).locked k then s.writeDisk (s.icache k).key (s.icache k).copy else s
  | .step _ => s

def caller : Action n → Fin n
  | .iget p _ | .idup p _ | .ilock p _ | .iunlock p _ | .iput p _ | .ialloc p _ _ | .modify p _ _
  | .iupdate p _ | .step p => p

def act (a : Action n) : System n :=
  if s.panic then s
  else
    match a with
    | .step p => s.step p
    | a => if (s.procs (caller a)).pc = .user then s.call a else s

end System

def System.initial (n : ℕ) (disk : Key → Dinode) : System n where
  icache _ := ⟨(0, 0), 0, false, false, ⟨0, 0, 0, 0, 0, fun _ => 0⟩⟩
  disk := disk
  procs _ := ⟨[], fun _ => false, .user⟩
  panic := false

variable {z : Entry} {k : Fin NINODE} {x : Proc}

section Cache

variable {n : ℕ} {s : System n} {p : Fin n} {c : Prop}

def Proc.count (x : Proc) (k : Fin NINODE) : ℕ := x.refs.count k

def Pc.busy : Pc → Option (Fin NINODE)
  | .load k | .itrunc k | .ifree k | .drop k => some k
  | _ => none

def Proc.holds (x : Proc) (k : Fin NINODE) : ℕ :=
  (if x.locked k then 1 else 0) + if x.pc.busy = some k then 1 else 0

/-- A process is truncating or freeing the inode. -/
def Pc.frees : Pc → Option (Fin NINODE)
  | .itrunc k | .ifree k => some k
  | _ => none

structure Cached (s : System n) : Prop where
  unique : ∀ j k, 0 < (s.icache j).ref → 0 < (s.icache k).ref →
    (s.icache j).key = (s.icache k).key → j = k
  ref : ∀ k, (s.icache k).ref = ∑ p, (s.procs p).count k
  busy : ∀ k, ∑ p, (s.procs p).holds k = if (s.icache k).busy then 1 else 0
  frees : ∀ p k, (s.procs p).pc.frees = some k → (s.icache k).copy.nlink = 0 ∧
    (s.icache k).busy = true ∧ 0 < (s.procs p).count k
  freed : ∀ a key, (s.disk key).type ≠ 0 → ((s.act a).disk key).type = 0 →
    ∃ p k, a = .step p ∧ (s.procs p).pc = .ifree k ∧ (s.icache k).key = key

/-- The reference of a process that truncates or frees an inode is the last. -/
def LastDropped (s : System n) : Prop := ∀ p k, (s.procs p).pc.frees = some k → (s.icache k).ref = 1

def System.finds (s : System n) : Action n → Option (Fin NINODE)
  | .iget _ key => s.cached key
  | .step p =>
    match (s.procs p).pc with
    | .iget key => s.cached key
    | _ => none
  | _ => none

/-- No `iget`, that of `ialloc` included, finds an inode that a process is freeing. -/
def Clear (s : System n) (a : Action n) : Prop :=
  ∀ k, s.finds a = some k → ∀ q, (s.procs q).pc.frees ≠ some k

instance (s : System n) (a : Action n) : Decidable (Clear s a) :=
  inferInstanceAs (Decidable (∀ _, _ → _))

def Pc.window : Pc → Option (Fin NINODE)
  | .itrunc k | .ifree k | .drop k => some k
  | _ => none

structure Sound (c : Prop) (s : System n) : Prop where
  unique : ∀ j k, 0 < (s.icache j).ref → 0 < (s.icache k).ref →
    (s.icache j).key = (s.icache k).key → j = k
  ref : ∀ k, (s.icache k).ref = ∑ p, (s.procs p).count k
  busy : ∀ k, ∑ p, (s.procs p).holds k = if (s.icache k).busy then 1 else 0
  owns : ∀ p k, 0 < (s.procs p).holds k ∨ (s.procs p).pc = .ilock k → 0 < (s.procs p).count k
  locked : ∀ p k, (s.procs p).locked k = true → (s.icache k).valid = true
  window : ∀ p k, (s.procs p).pc.window = some k →
    (s.icache k).valid = true ∧ (s.icache k).copy.nlink = 0
  last : c → LastDropped s
  typed : ∀ k, 0 < (s.icache k).ref → (s.icache k).valid = true → (s.icache k).copy.type = 0 →
    ∃ p, (s.procs p).pc = .drop k

theorem Sound.holds_other (h : Sound c s) {q : Fin n} (hq : 0 < (s.procs q).holds k) (hne : q ≠ p) :
    (s.procs p).holds k = 0 := by
  have hsum : (s.procs p).holds k + (s.procs q).holds k ≤ ∑ r, (s.procs r).holds k := by
    rw [← Finset.sum_pair (f := fun r => (s.procs r).holds k) hne.symm]
    exact Finset.sum_le_sum_of_subset (Finset.subset_univ _)
  rw [h.busy k] at hsum
  split_ifs at hsum <;> omega

theorem Sound.count_le (h : Sound c s) (p : Fin n) (k : Fin NINODE) :
    (s.procs p).count k ≤ (s.icache k).ref := by
  rw [h.ref k]
  exact le_sum (fun x : Proc => x.count k) s.procs p

theorem Sound.holds_le (h : Sound c s) (p : Fin n) (k : Fin NINODE) :
    (s.procs p).holds k ≤ if (s.icache k).busy then 1 else 0 := by
  rw [← h.busy k]
  exact le_sum (fun x : Proc => x.holds k) s.procs p

theorem holds_of_locked (h : x.locked k = true) : 0 < x.holds k := by
  simp only [Proc.holds, h, if_true]
  omega

theorem busy_window {pc : Pc} (h : pc.window = some k) : pc.busy = some k := by
  cases pc <;> simp_all [Pc.window, Pc.busy]

theorem window_frees {pc : Pc} (h : pc.frees = some k) : pc.window = some k := by
  cases pc <;> simp_all [Pc.window, Pc.frees]

theorem holds_of_window (h : x.pc.window = some k) : 0 < x.holds k := by
  simp only [Proc.holds, busy_window h, if_true]
  omega

theorem Sound.ref_pos (h : Sound c s) (hp : 0 < (s.procs p).holds k) : 0 < (s.icache k).ref :=
  Nat.lt_of_lt_of_le (h.owns p k (.inl hp)) (h.count_le p k)

variable {s' : System n}

theorem Sound.turn (h : Sound c s) {y : Proc} (hx : s.procs p = x)
    (hprocs : s'.procs = update s.procs p y)
    (hunique : ∀ j k, 0 < (s'.icache j).ref → 0 < (s'.icache k).ref →
      (s'.icache j).key = (s'.icache k).key → j = k)
    (href : ∀ k, (s'.icache k).ref + x.count k = (s.icache k).ref + y.count k)
    (hbusy : ∀ k, (if (s'.icache k).busy then 1 else 0) + x.holds k =
      (if (s.icache k).busy then 1 else 0) + y.holds k)
    (howns : ∀ k, 0 < y.holds k ∨ y.pc = .ilock k → 0 < y.count k)
    (hlocked : ∀ k, y.locked k = true → (s'.icache k).valid = true)
    (hsame : ∀ k, x.holds k = 0 → 0 < (s.icache k).ref →
      (s'.icache k).valid = (s.icache k).valid ∧ (s'.icache k).copy = (s.icache k).copy)
    (hwindow : ∀ k, y.pc.window = some k →
      (s'.icache k).valid = true ∧ (s'.icache k).copy.nlink = 0)
    (hlast : c → ∀ k, y.pc.frees = some k → (s'.icache k).ref = 1)
    (hothers : c → ∀ k, (s'.icache k).ref = (s.icache k).ref ∨ 0 < x.count k ∨
      ∀ q, (s.procs q).pc.frees ≠ some k)
    (htyped : ∀ k, 0 < x.holds k ∨ (s.icache k).ref = 0 → 0 < (s'.icache k).ref →
      (s'.icache k).valid = true → (s'.icache k).copy.type = 0 → y.pc = .drop k) :
    Sound c s' := by
  subst hx
  constructor
  · exact hunique
  · intro k
    have hsum := sum_update (fun x : Proc => x.count k) s.procs p y
    have hold := h.ref k
    have := href k
    rw [hprocs]
    omega
  · intro k
    have hsum := sum_update (fun x : Proc => x.holds k) s.procs p y
    have hold := h.busy k
    have := hbusy k
    rw [hprocs]
    omega
  · rw [hprocs]
    exact (forall_update_iff s.procs fun _ x => ∀ k, 0 < x.holds k ∨ x.pc = .ilock k →
      0 < x.count k).mpr ⟨howns, fun q _ => h.owns q⟩
  · rw [hprocs]
    apply (forall_update_iff s.procs fun _ x => ∀ k, x.locked k = true →
      (s'.icache k).valid = true).mpr
    refine ⟨hlocked, fun q hq k hk => ?_⟩
    have hheld := holds_of_locked hk
    rw [(hsame k (h.holds_other hheld hq) (h.ref_pos hheld)).1]
    exact h.locked q k hk
  · rw [hprocs]
    apply (forall_update_iff s.procs fun _ x => ∀ k, x.pc.window = some k →
      (s'.icache k).valid = true ∧ (s'.icache k).copy.nlink = 0).mpr
    refine ⟨hwindow, fun q hq k hwin => ?_⟩
    have hheld := holds_of_window hwin
    obtain ⟨hvalid', hcopy'⟩ := hsame k (h.holds_other hheld hq) (h.ref_pos hheld)
    rw [hvalid', hcopy']
    exact h.window q k hwin
  · intro hc
    rw [LastDropped, hprocs]
    apply (forall_update_iff s.procs fun _ x => ∀ k, x.pc.frees = some k →
      (s'.icache k).ref = 1).mpr
    refine ⟨hlast hc, fun q hq k hfrees => ?_⟩
    have hone := h.last hc q k hfrees
    obtain hsame | hmine | hnot := hothers hc k
    · rw [hsame, hone]
    · -- two processes would have a reference each
      have htheirs := h.owns q k (.inl (holds_of_window (window_frees hfrees)))
      have htwo : (s.procs p).count k + (s.procs q).count k ≤ ∑ r, (s.procs r).count k := by
        rw [← Finset.sum_pair (f := fun r => (s.procs r).count k) hq.symm]
        exact Finset.sum_le_sum_of_subset (Finset.subset_univ _)
      rw [← h.ref k] at htwo
      omega
    · exact absurd hfrees (hnot q)
  · intro k hpos hvalid htype
    by_cases hk : 0 < (s.procs p).holds k ∨ (s.icache k).ref = 0
    · refine ⟨p, ?_⟩
      rw [hprocs, update_self]
      exact htyped k hk hpos hvalid htype
    · obtain ⟨hholds, href⟩ := not_or.mp hk
      obtain ⟨hvalid', hcopy'⟩ := hsame k (by omega) (by omega)
      obtain ⟨q, hpc⟩ := h.typed k (by omega) (hvalid' ▸ hvalid) (hcopy' ▸ htype)
      have hqp : q ≠ p := by
        rintro rfl
        exact hholds (holds_of_window (by rw [hpc]; rfl))
      refine ⟨q, ?_⟩
      rw [hprocs, update_of_ne hqp]
      exact hpc

theorem Sound.touch (h : Sound c s) {y : Proc} (hx : s.procs p = x)
    (hprocs : s'.procs = update s.procs p y) (hicache : s'.icache = update s.icache k z)
    (hkey : ∀ j ≠ k, 0 < (s.icache j).ref → 0 < z.ref → (s.icache j).key ≠ z.key)
    (href : z.ref + x.count k = (s.icache k).ref + y.count k)
    (hrefs : ∀ j ≠ k, y.count j = x.count j) (hbusy : (if z.busy then 1 else 0) + x.holds k =
      (if (s.icache k).busy then 1 else 0) + y.holds k) (hbusys : ∀ j ≠ k, y.holds j = x.holds j)
    (howns : ∀ j, 0 < y.holds j ∨ y.pc = .ilock j → 0 < y.count j)
    (hlocked : y.locked k = true → z.valid = true)
    (hlockeds : ∀ j ≠ k, y.locked j = true → x.locked j = true)
    (hsame : x.holds k = 0 → 0 < (s.icache k).ref →
      z.valid = (s.icache k).valid ∧ z.copy = (s.icache k).copy)
    (hwindow : ∀ j, y.pc.window = some j → j = k ∧ z.valid = true ∧ z.copy.nlink = 0)
    (hlast : c → y.pc.frees = some k → z.ref = 1)
    (hothers : c → z.ref = (s.icache k).ref ∨ 0 < x.count k ∨
      ∀ q, (s.procs q).pc.frees ≠ some k)
    (hdrop : ∀ j, x.pc = .drop j → j = k)
    (htyped : 0 < x.holds k ∨ (s.icache k).ref = 0 → 0 < z.ref → z.valid = true →
      z.copy.type = 0 → y.pc = .drop k) : Sound c s' := by
  have hself : s'.icache k = z := by rw [hicache, update_self]
  have hother : ∀ j ≠ k, s'.icache j = s.icache j := by
    intro j hj
    rw [hicache, update_of_ne hj]
  apply h.turn hx hprocs
  · intro i j hi hj heq
    by_cases hik : i = k
    · by_cases hjk : j = k
      · rw [hik, hjk]
      · rw [hik, hself, hother j hjk] at heq
        rw [hik, hself] at hi
        rw [hother j hjk] at hj
        exact absurd heq.symm (hkey j hjk hj hi)
    · by_cases hjk : j = k
      · rw [hjk, hself, hother i hik] at heq
        rw [hjk, hself] at hj
        rw [hother i hik] at hi
        exact absurd heq (hkey i hik hi hj)
      · rw [hother i hik] at hi heq
        rw [hother j hjk] at hj heq
        exact h.unique i j hi hj heq
  · intro j
    by_cases hj : j = k
    · rw [hj, hself]
      exact href
    · rw [hother j hj, hrefs j hj]
  · intro j
    by_cases hj : j = k
    · rw [hj, hself]
      exact hbusy
    · rw [hother j hj, hbusys j hj]
  · exact howns
  · intro j hl
    by_cases hj : j = k
    · subst hj
      rw [hself]
      exact hlocked hl
    · rw [hother j hj]
      exact h.locked p j (by rw [hx]; exact hlockeds j hj hl)
  · intro j hholds hpos
    by_cases hj : j = k
    · subst hj
      rw [hself]
      exact hsame hholds hpos
    · rw [hother j hj]
      exact ⟨rfl, rfl⟩
  · intro j hw
    obtain ⟨rfl, hz⟩ := hwindow j hw
    rwa [hself]
  · intro hc j hf
    obtain ⟨rfl, -⟩ := hwindow j (window_frees hf)
    rw [hself]
    exact hlast hc hf
  · intro hc j
    by_cases hj : j = k
    · rw [hj, hself]
      exact hothers hc
    · exact .inl (by rw [hother j hj])
  · intro j hheld hpos hvalid htype
    by_cases hj : j = k
    · subst hj
      rw [hself] at hpos hvalid htype
      exact htyped hheld hpos hvalid htype
    · rw [hother j hj] at hpos hvalid htype
      -- whoever drops `j` is the process itself, which then is at `k`
      obtain ⟨q, hpc⟩ := h.typed j hpos hvalid htype
      have hq := holds_of_window (x := s.procs q) (k := j) (by rw [hpc]; rfl)
      have hqp : q = p := by
        by_contra hne
        have := h.holds_other hq hne
        rw [hx] at this
        omega
      subst hqp
      rw [hx] at hpc
      exact absurd (hdrop j hpc) hj

section Steps

variable {refs : List (Fin NINODE)} {locked : Fin NINODE → Bool} {pc pc' : Pc}

theorem holds_eq (refs refs' : List (Fin NINODE)) (h : pc.busy = pc'.busy) (k : Fin NINODE) :
    Proc.holds ⟨refs, locked, pc⟩ k = Proc.holds ⟨refs', locked, pc'⟩ k := by
  simp only [Proc.holds, h]

theorem count_erase (hk : k ∈ refs) (j : Fin NINODE) :
    (refs.erase k).count j + (if k = j then 1 else 0) = refs.count j := by
  rw [(List.perm_cons_erase hk).count_eq, List.count_cons]
  simp

theorem Sound.type_ne (h : Sound c s) (hx : s.procs p = x) (hheld : 0 < x.holds k)
    (hpc : x.pc ≠ .drop k) (hvalid : (s.icache k).valid = true) :
    (s.icache k).copy.type ≠ 0 := by
  intro htype
  have hheld' : 0 < (s.procs p).holds k := by rwa [hx]
  obtain ⟨q, hq⟩ := h.typed k (h.ref_pos hheld') hvalid htype
  have hqheld := holds_of_window (x := s.procs q) (k := k) (by rw [hq]; rfl)
  by_cases hqp : q = p
  · rw [hqp, hx] at hq
    exact hpc hq
  · have := h.holds_other hqheld hqp
    omega

theorem busy_none_drop (h : pc.busy = none) (k : Fin NINODE) : pc ≠ .drop k := by
  rintro rfl
  simp [Pc.busy] at h

theorem busy_none_window (h : pc.busy = none) (k : Fin NINODE) : pc.window ≠ some k := by
  intro hw
  rw [busy_window hw] at h
  cases h

theorem busy_none_frees (h : pc.busy = none) (k : Fin NINODE) : pc.frees ≠ some k :=
  fun hf => busy_none_window h k (window_frees hf)

theorem Sound.obtain (h : Sound c s) (hx : s.procs p = ⟨refs, locked, pc⟩) (hpc : pc.busy = none)
    (hkey : ∀ j ≠ k, 0 < (s.icache j).ref → (s.icache j).key ≠ z.key)
    (href : z.ref = (s.icache k).ref + 1) (hbusy : z.busy = (s.icache k).busy)
    (hsame : 0 < (s.icache k).ref → z.valid = (s.icache k).valid ∧ z.copy = (s.icache k).copy)
    (hvalid : (s.icache k).ref = 0 → z.valid = false)
    (hclear : c → 0 < refs.count k ∨ ∀ q, (s.procs q).pc.frees ≠ some k) :
    Sound c ((s.setEntry k z).obtain p k) := by
  have hy : ((s.setEntry k z).obtain p k).procs =
      update s.procs p ⟨refs ++ [k], locked, .user⟩ := by
    simp only [System.obtain, System.set, System.setEntry, hx]
  have hcount : ∀ j, Proc.count ⟨refs ++ [k], locked, .user⟩ j =
      Proc.count ⟨refs, locked, pc⟩ j + if k = j then 1 else 0 := fun j => by
    simp [Proc.count, List.count_append, List.count_singleton]
  have hholds : ∀ j, Proc.holds ⟨refs ++ [k], locked, .user⟩ j =
      Proc.holds ⟨refs, locked, pc⟩ j := holds_eq _ _ hpc.symm
  apply h.touch hx hy rfl
  · exact fun j hj hpos _ => hkey j hj hpos
  · rw [hcount k, if_pos rfl]
    omega
  · intro j hj
    rw [hcount j, if_neg hj.symm, Nat.add_zero]
  · rw [hbusy, hholds k]
  · exact fun j _ => hholds j
  · intro j hj
    rw [hcount j]
    apply Nat.lt_of_lt_of_le _ (Nat.le_add_right _ _)
    have hown := h.owns p j
    rw [hx] at hown
    refine hown (.inl ?_)
    obtain hj | hj := hj
    · rwa [hholds j] at hj
    · cases hj
  · intro hl
    have hl' : (s.procs p).locked k = true := by rwa [hx]
    have hpos := h.ref_pos (holds_of_locked hl')
    rw [(hsame hpos).1]
    exact h.locked p k hl'
  · exact fun j _ hl => hl
  · exact fun _ => hsame
  · exact fun j hw => absurd hw (by simp [Pc.window])
  · exact fun _ hf => absurd hf (by simp [Pc.frees])
  · exact fun hc => .inr (hclear hc)
  · exact fun j hd => absurd hd (busy_none_drop hpc j)
  · rintro (hheld | hzero) hpos hz htype
    · have hheld' : 0 < (s.procs p).holds k := by rwa [hx]
      obtain ⟨hv, hc⟩ := hsame (h.ref_pos hheld')
      rw [hc] at htype
      exact absurd htype (h.type_ne hx hheld (busy_none_drop hpc k) (hv ▸ hz))
    · rw [hvalid hzero] at hz
      exact Bool.noConfusion hz

theorem cached_eq {key : Key} (h : s.cached key = some k) :
    0 < (s.icache k).ref ∧ (s.icache k).key = key := by
  simpa using List.find?_some h

theorem cached_none {key : Key} (h : s.cached key = none) (k : Fin NINODE)
    (hpos : 0 < (s.icache k).ref) : (s.icache k).key ≠ key := by
  have hall := List.find?_eq_none.mp h k (List.mem_finRange k)
  simp only [decide_eq_true_eq, not_and] at hall
  exact hall hpos

theorem empty_eq (h : s.empty = some k) : (s.icache k).ref = 0 := by
  simpa using List.find?_some h

section Work

variable (h : Sound c s)
include h

theorem Sound.busy_of_ref (hzero : (s.icache k).ref = 0) : (s.icache k).busy = false := by
  by_contra hbusy
  have hsum := h.busy k
  rw [if_pos (Bool.eq_true_of_not_eq_false hbusy)] at hsum
  have hne : ∑ p, (s.procs p).holds k ≠ 0 := by omega
  obtain ⟨q, _, hq⟩ := Finset.exists_ne_zero_of_sum_ne_zero hne
  have := h.ref_pos (Nat.pos_of_ne_zero hq)
  omega

theorem Sound.panic : Sound c { s with panic := true } :=
  ⟨h.unique, h.ref, h.busy, h.owns, h.locked, h.window, h.last, h.typed⟩

theorem Sound.iget (hx : s.procs p = ⟨refs, locked, pc⟩) (hpc : pc.busy = none)
    (key : Key) (hclear : c → ∀ k, s.cached key = some k → ∀ q, (s.procs q).pc.frees ≠ some k) :
    Sound c (s.iget p key) := by
  unfold System.iget
  split
  · next k hk =>
    obtain ⟨hpos, hkey⟩ := cached_eq hk
    apply h.obtain hx hpc
    · intro j hj hjpos heq
      exact hj (h.unique j k hjpos hpos heq)
    · rfl
    · rfl
    · exact fun _ => ⟨rfl, rfl⟩
    · exact fun hzero => absurd hzero hpos.ne'
    · exact fun hc => .inr (hclear hc k hk)
  · next hnone =>
    split
    · exact h.panic
    · next k hk =>
      have hzero := empty_eq hk
      apply h.obtain hx hpc
      · exact fun j _ hpos => cached_none hnone j hpos
      · rw [hzero]
      · exact (h.busy_of_ref hzero).symm
      · exact fun hpos => absurd hzero hpos.ne'
      · exact fun _ => rfl
      · refine fun hc => .inr fun q hf => ?_
        rw [h.last hc q k hf] at hzero
        cases hzero

theorem Sound.pos_of_mem (hx : s.procs p = ⟨refs, locked, pc⟩) (hk : k ∈ refs) :
    0 < (s.icache k).ref := by
  have hle := h.count_le p k
  rw [hx] at hle
  exact Nat.lt_of_lt_of_le (List.count_pos_iff.mpr hk) hle

theorem Sound.idup (hx : s.procs p = ⟨refs, locked, .user⟩) (hk : k ∈ refs) :
    Sound c (s.idup p k) := by
  have hpos := h.pos_of_mem hx hk
  apply h.obtain hx rfl
  · intro j hj hjpos heq
    exact hj (h.unique j k hjpos hpos heq)
  · rfl
  · rfl
  · exact fun _ => ⟨rfl, rfl⟩
  · exact fun hzero => absurd hzero hpos.ne'
  · exact fun _ => .inl (List.count_pos_iff.mpr hk)

theorem Sound.goto (hx : s.procs p = ⟨refs, locked, pc⟩) (hpc : pc.busy = none)
    (hpc' : pc'.busy = none) (hilock : ∀ k, pc' = .ilock k → k ∈ refs) (disk : Key → Dinode) :
    Sound c ({ s with disk := disk }.goto p pc') := by
  have hy : ({ s with disk := disk }.goto p pc').procs =
      update s.procs p ⟨refs, locked, pc'⟩ := by
    simp only [System.goto, System.set, hx]
  have hholds : ∀ j, Proc.holds ⟨refs, locked, pc'⟩ j = Proc.holds ⟨refs, locked, pc⟩ j :=
    holds_eq _ _ (hpc'.trans hpc.symm)
  apply h.turn hx hy h.unique
  · exact fun _ => rfl
  · intro k
    rw [hholds k]
    rfl
  · rintro k (hk | hk)
    · have hown := h.owns p k
      rw [hx] at hown
      rw [hholds k] at hk
      exact hown (.inl hk)
    · exact List.count_pos_iff.mpr (hilock k hk)
  · have hlocked := h.locked p
    rw [hx] at hlocked
    exact hlocked
  · exact fun _ _ _ => ⟨rfl, rfl⟩
  · exact fun k hw => absurd hw (busy_none_window hpc' k)
  · exact fun _ k hf => absurd hf (busy_none_frees hpc' k)
  · exact fun _ _ => .inl rfl
  · rintro k (hheld | hzero) hpos hvalid htype
    · exact absurd htype (h.type_ne hx hheld (busy_none_drop hpc k) hvalid)
    · exact absurd hzero hpos.ne'

theorem Sound.unref (hx : s.procs p = ⟨refs, locked, pc⟩) (hk : k ∈ refs)
    (hkey : z.key = (s.icache k).key) (href : z.ref = (s.icache k).ref)
    (hunlocked : locked k = false) (hbusy : (if z.busy then 1 else 0) +
      Proc.holds ⟨refs, locked, pc⟩ k = if (s.icache k).busy then 1 else 0)
    (hbusys : ∀ j ≠ k, pc.busy ≠ some j)
    (hsame : pc.busy = none → z.valid = (s.icache k).valid ∧ z.copy = (s.icache k).copy)
    (hvalid : pc.busy ≠ none → z.valid = false) (hdrop : ∀ j, pc = .drop j → j = k) :
    Sound c (s.unref p k z) := by
  have hpos := h.pos_of_mem hx hk
  have hy : (s.unref p k z).procs = update s.procs p ⟨refs.erase k, locked, .user⟩ := by
    simp only [System.unref, System.set, System.setEntry, hx]
  have hcount : ∀ j, Proc.count ⟨refs.erase k, locked, .user⟩ j + (if k = j then 1 else 0) =
      Proc.count ⟨refs, locked, pc⟩ j := count_erase hk
  have hholds : ∀ j, Proc.holds ⟨refs.erase k, locked, .user⟩ j = if locked j then 1 else 0 := by
    intro j
    simp [Proc.holds, Pc.busy]
  have hself : Proc.holds ⟨refs.erase k, locked, .user⟩ k = 0 := by
    rw [hholds, hunlocked]
    rfl
  have hothers : ∀ j ≠ k, Proc.holds ⟨refs.erase k, locked, .user⟩ j =
      Proc.holds ⟨refs, locked, pc⟩ j := by
    intro j hj
    simp only [Proc.holds, if_neg (hbusys j hj)]
    rfl
  apply h.touch hx hy rfl
  · intro j hj hjpos _ heq
    exact hj (h.unique j k hjpos hpos (heq.trans hkey))
  · have := hcount k
    rw [if_pos rfl] at this
    dsimp only
    omega
  · intro j hj
    have := hcount j
    rwa [if_neg hj.symm, Nat.add_zero] at this
  · rw [hself]
    exact hbusy
  · exact hothers
  · rintro j (hj | hj)
    · have hne : j ≠ k := by
        rintro rfl
        omega
      have hown := h.owns p j
      rw [hx, ← hcount j, if_neg hne.symm] at hown
      rw [hothers j hne] at hj
      exact hown (.inl hj)
    · cases hj
  · intro hl
    simp [hunlocked] at hl
  · exact fun _ _ hl => hl
  · intro hzero _
    apply hsame
    by_contra hne
    obtain ⟨j, hj⟩ := Option.ne_none_iff_exists'.mp hne
    by_cases hjk : j = k
    · simp [Proc.holds, hj, hjk] at hzero
    · exact hbusys j hjk hj
  · exact fun j hw => absurd hw (by simp [Pc.window])
  · exact fun _ hf => absurd hf (by simp [Pc.frees])
  · exact fun _ => .inr (.inl (List.count_pos_iff.mpr hk))
  · exact hdrop
  · rintro (hheld | hzero) _ hz _
    · have hne : pc.busy ≠ none := by
        intro hnone
        simp [Proc.holds, hnone, hunlocked] at hheld
      rw [hvalid hne] at hz
      exact Bool.noConfusion hz
    · exact absurd hzero hpos.ne'

theorem Sound.work (hx : s.procs p = ⟨refs, locked, pc⟩)
    {locked' : Fin NINODE → Bool} (hprocs : s'.procs = update s.procs p ⟨refs, locked', pc'⟩)
    (hicache : s'.icache = update s.icache k z) (hk : k ∈ refs)
    (hkey : z.key = (s.icache k).key) (href : z.ref = (s.icache k).ref)
    (hbusy : (if z.busy then 1 else 0) + Proc.holds ⟨refs, locked, pc⟩ k =
      (if (s.icache k).busy then 1 else 0) + Proc.holds ⟨refs, locked', pc'⟩ k)
    (hbusys : ∀ j ≠ k, Proc.holds ⟨refs, locked', pc'⟩ j = Proc.holds ⟨refs, locked, pc⟩ j)
    (hilock : ∀ j, pc' ≠ .ilock j) (hlocked : locked' k = true → z.valid = true)
    (hlockeds : ∀ j ≠ k, locked' j = locked j) (hsame : Proc.holds ⟨refs, locked, pc⟩ k = 0 →
      z.valid = (s.icache k).valid ∧ z.copy = (s.icache k).copy)
    (hwindow : ∀ j, pc'.window = some j → j = k ∧ z.valid = true ∧ z.copy.nlink = 0)
    (hlast : c → pc'.frees = some k → z.ref = 1) (hdrop : ∀ j, pc ≠ .drop j)
    (htyped : 0 < Proc.holds ⟨refs, locked, pc⟩ k → z.valid = true → z.copy.type = 0 →
      pc' = .drop k) : Sound c s' := by
  have hrefpos := h.pos_of_mem hx hk
  apply h.touch hx hprocs hicache
  · intro j hj hjpos _ heq
    exact hj (h.unique j k hjpos hrefpos (heq.trans hkey))
  · rw [href]
    rfl
  · exact fun _ _ => rfl
  · exact hbusy
  · exact hbusys
  · rintro j (hj | hj)
    · by_cases hjk : j = k
      · rw [hjk]
        exact List.count_pos_iff.mpr hk
      · have hown := h.owns p j
        rw [hx] at hown
        rw [hbusys j hjk] at hj
        exact hown (.inl hj)
    · exact absurd hj (hilock j)
  · exact hlocked
  · exact fun j hj hl => (hlockeds j hj).symm.trans hl
  · exact fun hzero _ => hsame hzero
  · exact hwindow
  · exact hlast
  · exact fun _ => .inl href
  · exact fun j hd => absurd hd (hdrop j)
  · rintro (hheld | hzero) _ hvalid htype
    · exact htyped hheld hvalid htype
    · exact absurd hzero hrefpos.ne'

end Work

theorem System.goto_procs (hx : s.procs p = ⟨refs, locked, pc⟩) (pc' : Pc) :
    (s.goto p pc').procs = update s.procs p ⟨refs, locked, pc'⟩ := by
  simp only [System.goto, System.set, hx]

theorem holds_user (refs : List (Fin NINODE)) (locked : Fin NINODE → Bool) (k : Fin NINODE)
    (hpc : pc.busy = none) : Proc.holds ⟨refs, locked, pc⟩ k = if locked k then 1 else 0 := by
  simp [Proc.holds, hpc]

theorem holds_at (refs : List (Fin NINODE)) (locked : Fin NINODE → Bool) (j : Fin NINODE)
    (hpc : pc.busy = some k) : Proc.holds ⟨refs, locked, pc⟩ j =
      (if locked j then 1 else 0) + if k = j then 1 else 0 := by
  simp [Proc.holds, hpc]

variable (h : Sound c s)
include h

theorem Sound.holds_of_not_busy (hx : s.procs p = x)
    (hbusy : (s.icache k).busy = false) : x.holds k = 0 := by
  have hle := h.holds_le p k
  rw [hbusy, hx] at hle
  exact Nat.le_zero.mp hle

theorem Sound.not_locked (hx : s.procs p = ⟨refs, locked, pc⟩)
    (hpc : pc.busy = some k) : locked k = false ∧ (s.icache k).busy = true := by
  have hle := h.holds_le p k
  rw [hx, holds_at refs locked k hpc, if_pos rfl] at hle
  constructor
  · by_contra hl
    rw [if_pos (Bool.eq_true_of_not_eq_false hl)] at hle
    split_ifs at hle <;> omega
  · by_contra hb
    rw [if_neg hb] at hle
    omega

theorem Sound.mem_of_holds (hx : s.procs p = ⟨refs, locked, pc⟩)
    (hheld : 0 < Proc.holds ⟨refs, locked, pc⟩ k) : k ∈ refs := by
  have hown := h.owns p k
  rw [hx] at hown
  exact List.count_pos_iff.mp (hown (.inl hheld))

theorem Sound.iput (hx : s.procs p = ⟨refs, locked, .user⟩) (hk : k ∈ refs)
    (hunlocked : locked k = false) : Sound c (s.iput p k) := by
  have hholds : Proc.holds ⟨refs, locked, .user⟩ k = 0 := by
    rw [holds_user refs locked k rfl, hunlocked]
    rfl
  unfold System.iput
  dsimp only
  split_ifs with hfree hbusy
  · exact h.panic
  · obtain ⟨href, hvalid, hnlink⟩ := hfree
    have hafter : ∀ j, Proc.holds ⟨refs, locked, .itrunc k⟩ j =
        (if locked j then 1 else 0) + if k = j then 1 else 0 := fun j =>
      holds_at refs locked j rfl
    refine h.work hx (System.goto_procs (s := s.setEntry k _) hx (.itrunc k)) rfl hk rfl rfl ?_
      (fun j hj => ?_) (by simp) (fun _ => hvalid) (fun _ _ => rfl) (fun _ => ⟨rfl, rfl⟩)
      (fun j hw => ⟨(Option.some.inj hw).symm, hvalid, hnlink⟩) (fun _ _ => href) (by simp)
      fun hheld => ?_
    · rw [hholds, hafter]
      simp [hunlocked, hbusy]
    · rw [hafter, if_neg hj.symm, holds_user refs locked j rfl, Nat.add_zero]
    · rw [hholds] at hheld
      exact absurd hheld (Nat.lt_irrefl 0)
  · apply h.unref hx hk rfl rfl hunlocked
    · rw [hholds, Nat.add_zero]
    · exact fun j _ => by simp [Pc.busy]
    · exact fun _ => ⟨rfl, rfl⟩
    · exact fun hne => absurd rfl hne
    · exact fun _ hd => absurd hd (by simp)

theorem Sound.ilockStep (hx : s.procs p = ⟨refs, locked, .ilock k⟩)
    (hbusy : (s.icache k).busy = false) :
    Sound c ((s.setEntry k { s.icache k with busy := true }).goto p (.load k)) := by
  have hk : k ∈ refs := by
    have hown := h.owns p k
    rw [hx] at hown
    exact List.count_pos_iff.mp (hown (.inr rfl))
  have hholds := h.holds_of_not_busy hx hbusy
  have hunlocked : locked k = false := by
    simpa [Proc.holds, Pc.busy] using hholds
  refine h.work hx (System.goto_procs (s := s.setEntry k _) hx (.load k)) rfl hk rfl rfl ?_
    (fun j hj => ?_) (by simp) (fun hl => ?_) (fun _ _ => rfl) (fun _ => ⟨rfl, rfl⟩)
    (by simp [Pc.window]) (by simp [Pc.frees]) (by simp) fun hheld => ?_
  · rw [hholds, holds_at refs locked k rfl]
    simp [hunlocked, hbusy]
  · rw [holds_at refs locked j rfl, if_neg hj.symm, holds_user refs locked j rfl, Nat.add_zero]
  · simp [hunlocked] at hl
  · omega

theorem Sound.load (hx : s.procs p = ⟨refs, locked, .load k⟩)
    (hkey : z.key = (s.icache k).key) (href : z.ref = (s.icache k).ref)
    (hbusy : z.busy = (s.icache k).busy) (hvalid : z.valid = true) (htype : z.copy.type ≠ 0) :
    Sound c ((s.set p ⟨refs, update locked k true, .user⟩).setEntry k z) := by
  have hk : k ∈ refs := h.mem_of_holds hx (by
    rw [holds_at refs locked k rfl, if_pos rfl]
    omega)
  obtain ⟨hunlocked, hheld⟩ := h.not_locked hx rfl
  refine h.work hx rfl rfl hk hkey href ?_ (fun j hj => ?_) (by simp) (fun _ => hvalid)
    (fun j hj => update_of_ne hj ..) (fun hzero => ?_) (by simp [Pc.window]) (by simp [Pc.frees])
    (by simp) fun _ _ ht => absurd ht htype
  · rw [holds_at refs locked k rfl, holds_user _ _ k rfl, update_self, hbusy]
    simp [hunlocked]
  · rw [holds_at refs locked j rfl, holds_user _ _ j rfl, update_of_ne hj,
      if_neg hj.symm, Nat.add_zero]
  · rw [holds_at refs locked k rfl, if_pos rfl] at hzero
    omega

theorem Sound.put (hx : s.procs p = ⟨refs, locked, pc⟩)
    (hpc : pc.frees = some k) (hpc' : pc'.window = some k)
    {d : Dinode} (hd : d.nlink = (s.icache k).copy.nlink)
    (htype : d.type = (s.icache k).copy.type ∨ pc' = .drop k) :
    Sound c ((s.put k d).goto p pc') := by
  have hw : pc.window = some k := window_frees hpc
  obtain ⟨hvalid, hnlink⟩ := h.window p k (by rw [hx]; exact hw)
  have hheld : 0 < Proc.holds ⟨refs, locked, pc⟩ k := holds_of_window hw
  have hholds : ∀ j, Proc.holds ⟨refs, locked, pc'⟩ j = Proc.holds ⟨refs, locked, pc⟩ j :=
    holds_eq _ _ ((busy_window hpc').trans (busy_window hw).symm)
  have hdrop : ∀ j, pc ≠ .drop j := by
    rintro j rfl
    simp [Pc.frees] at hpc
  refine h.work hx (System.goto_procs (s := s.put k d) hx pc') rfl (h.mem_of_holds hx hheld) rfl
    rfl ?_ (fun j _ => hholds j) (fun j hj => ?_) (fun _ => hvalid) (fun _ _ => rfl)
    (fun hzero => ?_) (fun j hj => ?_) (fun hc _ => h.last hc p k (by rw [hx]; exact hpc)) hdrop
    fun _ _ hzero => ?_
  · rw [hholds k]
  · rw [hj] at hpc'
    simp [Pc.window] at hpc'
  · omega
  · exact ⟨Option.some.inj (hj.symm.trans hpc'), hvalid, hd.trans hnlink⟩
  · obtain htype | hpc'' := htype
    · exact absurd (htype.symm.trans hzero) (h.type_ne hx hheld (hdrop k) hvalid)
    · exact hpc''

theorem Sound.iunlock (hx : s.procs p = ⟨refs, locked, .user⟩) (hl : locked k = true) :
    Sound c ((s.setEntry k { s.icache k with busy := false }).set p
      ⟨refs, update locked k false, .user⟩) := by
  have hheld : Proc.holds ⟨refs, locked, .user⟩ k = 1 := by
    rw [holds_user refs locked k rfl, hl]
    rfl
  have hk : k ∈ refs := h.mem_of_holds hx (by omega)
  have hbusy : (s.icache k).busy = true := by
    by_contra hb
    have := h.holds_of_not_busy hx (Bool.eq_false_of_not_eq_true hb)
    omega
  refine h.work hx rfl rfl hk rfl rfl ?_ (fun j hj => ?_) (by simp) (fun hl' => ?_)
    (fun j hj => update_of_ne hj ..) (fun hzero => ?_) (by simp [Pc.window]) (by simp [Pc.frees])
    (by simp) fun _ hvalid htype => ?_
  · rw [hheld, holds_user _ _ k rfl, update_self, hbusy]
    rfl
  · rw [holds_user _ _ j rfl, holds_user _ _ j rfl, update_of_ne hj]
  · rw [update_self] at hl'
    exact Bool.noConfusion hl'
  · omega
  · exact absurd htype (h.type_ne hx (by omega) (by simp) hvalid)

theorem Sound.modify (hx : s.procs p = ⟨refs, locked, .user⟩) (hl : locked k = true)
    {d : Dinode} (hd : d.type = (s.icache k).copy.type) :
    Sound c (s.setEntry k { s.icache k with copy := d }) := by
  have hheld : Proc.holds ⟨refs, locked, .user⟩ k = 1 := by
    rw [holds_user refs locked k rfl, hl]
    rfl
  have hk : k ∈ refs := h.mem_of_holds hx (by omega)
  have hvalid : (s.icache k).valid = true := h.locked p k (by rw [hx]; exact hl)
  have hy : s.procs = update s.procs p ⟨refs, locked, .user⟩ := by
    rw [← hx, update_eq_self]
  refine h.work hx hy rfl hk rfl rfl rfl (fun _ _ => rfl) (by simp) (fun _ => hvalid)
    (fun _ _ => rfl) (fun hzero => ?_) (by simp [Pc.window]) (by simp [Pc.frees]) (by simp)
    fun _ _ htype => ?_
  · omega
  · exact absurd (hd.symm.trans htype) (h.type_ne hx (by omega) (by simp) hvalid)

theorem Sound.step (p : Fin n) (hclear : c → Clear s (.step p)) : Sound c (s.step p) := by
  obtain ⟨refs, locked, pc, hx⟩ : ∃ refs locked pc, s.procs p = ⟨refs, locked, pc⟩ :=
    ⟨_, _, _, rfl⟩
  unfold System.step
  simp only [hx]
  cases pc with
  | user => exact h
  | ilock k =>
    dsimp only
    split_ifs with hbusy
    · exact h
    · exact h.ilockStep hx (Bool.eq_false_of_not_eq_true hbusy)
  | load k =>
    dsimp only
    split_ifs with hvalid htype
    · have hheld : 0 < Proc.holds ⟨refs, locked, .load k⟩ k := by
        rw [holds_at refs locked k rfl, if_pos rfl]
        omega
      have hload := h.load hx rfl rfl rfl hvalid (h.type_ne hx hheld (by simp) hvalid)
      rwa [System.setEntry, show (s.set p ⟨refs, update locked k true, .user⟩).icache =
        s.icache from rfl, update_eq_self] at hload
    · exact h.panic
    · exact h.load hx rfl rfl rfl rfl htype
  | itrunc k => exact h.put hx rfl rfl rfl (.inl rfl)
  | ifree k => exact h.put hx rfl rfl rfl (.inr rfl)
  | drop k =>
    obtain ⟨hunlocked, hbusy⟩ := h.not_locked hx (k := k) rfl
    refine h.unref hx (h.mem_of_holds hx (holds_of_window rfl)) rfl rfl hunlocked ?_
      (fun j hj => ?_) (fun hnone => ?_) (fun _ => rfl) fun j hd => ?_
    · rw [holds_at refs locked k rfl]
      simp [hunlocked, hbusy]
    · simpa [Pc.busy] using hj.symm
    · simp [Pc.busy] at hnone
    · exact ((Pc.drop.injEq ..).mp hd).symm
  | iget key =>
    refine h.iget hx rfl key fun hc k hk => hclear hc k ?_
    simp only [System.finds, hx]
    exact hk

theorem Sound.call (a : Action n) (hclear : c → Clear s a)
    (hx : s.procs (System.caller a) = ⟨refs, locked, .user⟩) : Sound c (s.call a) := by
  cases a with
  | iget p key => exact h.iget hx rfl key hclear
  | idup p k =>
    simp only [System.caller] at hx
    simp only [System.call, hx]
    split_ifs with hr
    · exact h.idup hx hr
    · exact h
  | ilock p k =>
    simp only [System.caller] at hx
    simp only [System.call, hx]
    split_ifs with hr hzero
    · exact h.panic
    · refine h.goto hx rfl rfl (fun j hj => ?_) s.disk
      rwa [← (Pc.ilock.injEq ..).mp hj]
    · exact h
  | iunlock p k =>
    simp only [System.caller] at hx
    simp only [System.call, hx]
    split_ifs with hl hpanic
    · exact h.panic
    · exact h.iunlock hx hl
    · exact h
  | iput p k =>
    simp only [System.caller] at hx
    simp only [System.call, hx]
    split_ifs with hr
    · exact h.iput hx hr.1 hr.2
    · exact h
  | ialloc p key type =>
    simp only [System.caller] at hx
    simp only [System.call, System.ialloc]
    split_ifs
    · exact h.goto hx rfl rfl (by simp) _
    · exact h
  | modify p k d =>
    simp only [System.caller] at hx
    simp only [System.call, hx]
    split_ifs with hl
    · exact h.modify hx hl.1 hl.2
    · exact h
  | iupdate p k =>
    simp only [System.call]
    split_ifs
    · exact ⟨h.unique, h.ref, h.busy, h.owns, h.locked, h.window, h.last, h.typed⟩
    · exact h
  | step p => exact h

end Steps

theorem Sound.act (h : Sound c s) (a : Action n) (hclear : c → Clear s a) :
    Sound c (s.act a) := by
  have hcall : Sound c (if (s.procs (System.caller a)).pc = .user then s.call a else s) := by
    split_ifs with huser
    · exact h.call a hclear (by rw [← huser])
    · exact h
  unfold System.act
  split_ifs
  · exact h
  · cases a with
    | step p => exact h.step p hclear
    | _ => exact hcall

theorem Sound.initial (n : ℕ) (disk : Key → Dinode) : Sound c (.initial n disk) := by
  constructor
  · intro j k hj
    exact absurd hj (Nat.lt_irrefl 0)
  · intro k
    simp [System.initial, Proc.count]
  · intro k
    simp [System.initial, Proc.holds, Pc.busy]
  · intro p k hk
    simp [System.initial, Proc.holds, Pc.busy] at hk
  · intro p k hk
    simp [System.initial] at hk
  · intro p k hw
    simp [System.initial, Pc.window] at hw
  · intro _ p k hf
    simp [System.initial, Pc.frees] at hf
  · intro k hk
    exact absurd hk (Nat.lt_irrefl 0)

theorem iget_disk (key : Key) : (s.iget p key).disk = s.disk := by
  unfold System.iget
  split
  · rfl
  · split <;> rfl

theorem iput_disk (k : Fin NINODE) : (s.iput p k).disk = s.disk := by
  unfold System.iput
  dsimp only
  split_ifs <;> rfl

theorem type_update_ne {disk : Key → Dinode} {key key' : Key} {d : Dinode}
    (hold : (disk key).type ≠ 0) (hd : key = key' → d.type ≠ 0) :
    (update disk key' d key).type ≠ 0 := by
  by_cases hkey : key = key'
  · rw [hkey, update_self]
    exact hd hkey
  · rw [update_of_ne hkey]
    exact hold

theorem Sound.freed_step (h : Sound c s) (p : Fin n) (key : Key) (hold : (s.disk key).type ≠ 0)
    (hnew : ((s.step p).disk key).type = 0) :
    ∃ k, (s.procs p).pc = .ifree k ∧ (s.icache k).key = key := by
  unfold System.step at hnew
  split at hnew
  · exact absurd hnew hold
  · dsimp only at hnew
    split_ifs at hnew <;> exact absurd hnew hold
  · dsimp only at hnew
    split_ifs at hnew <;> exact absurd hnew hold
  · next k hpc =>
    have hw : (s.procs p).pc.window = some k := by rw [hpc]; rfl
    obtain ⟨hvalid, _⟩ := h.window p k hw
    have htype := h.type_ne rfl (holds_of_window hw) (by simp [hpc]) hvalid
    exact absurd hnew (type_update_ne hold fun _ => htype)
  · next k hpc =>
    refine ⟨k, hpc, ?_⟩
    by_contra hne
    exact absurd hnew (type_update_ne hold fun hkey => absurd hkey.symm hne)
  · exact absurd hnew hold
  · rw [iget_disk] at hnew
    exact absurd hnew hold

theorem Sound.type_call (h : Sound c s) (a : Action n)
    (huser : (s.procs (System.caller a)).pc = .user) (key : Key) (hold : (s.disk key).type ≠ 0) :
    ((s.call a).disk key).type ≠ 0 := by
  cases a with
  | iget p key' =>
    simp only [System.call, iget_disk]
    exact hold
  | iput p r =>
    simp only [System.call]
    split_ifs
    · rw [iput_disk]
      exact hold
    · exact hold
  | ialloc p key' type =>
    simp only [System.call, System.ialloc]
    split_ifs with hfree
    · refine type_update_ne hold fun hkey => ?_
      rw [hkey] at hold
      exact absurd hfree hold
    · exact hold
  | iupdate p k =>
    simp only [System.call]
    split_ifs with hl
    · simp only [System.caller] at huser
      have htype := h.type_ne rfl (holds_of_locked hl) (by simp [huser]) (h.locked p k hl)
      exact type_update_ne hold fun _ => htype
    · exact hold
  | step p => exact hold
  | _ =>
    simp only [System.call]
    split_ifs <;> exact hold

theorem Sound.freed (h : Sound c s) (a : Action n) (key : Key) (hold : (s.disk key).type ≠ 0)
    (hnew : ((s.act a).disk key).type = 0) :
    ∃ p k, a = .step p ∧ (s.procs p).pc = .ifree k ∧ (s.icache k).key = key := by
  have hcall : ((if (s.procs (System.caller a)).pc = .user then s.call a
      else s).disk key).type ≠ 0 := by
    split_ifs with huser
    · exact h.type_call a huser key hold
    · exact hold
  unfold System.act at hnew
  split_ifs at hnew
  · exact absurd hnew hold
  · cases a with
    | step p =>
      obtain ⟨k, hpc, hkey⟩ := h.freed_step p key hold hnew
      exact ⟨p, k, rfl, hpc, hkey⟩
    | _ => exact absurd hnew hcall

theorem Sound.cached (h : Sound c s) : Cached s where
  __ := h
  frees p k hf := by
    have hw := window_frees hf
    exact ⟨(h.window p k hw).2, (h.not_locked rfl (busy_window hw)).2,
      h.owns p k (.inl (holds_of_window hw))⟩
  freed := h.freed

end Cache

theorem always_cached {n : ℕ} (disk : Key → Dinode) (acts : List (Action n)) :
    Always System.act Cached (.initial n disk) acts ∧
    (Along System.act Clear (.initial n disk) acts →
      Always System.act LastDropped (.initial n disk) acts) := by
  refine ⟨fun pre _ => ?_, fun hclear => ?_⟩
  · exact (run_invariant (Sound.initial (c := False) n disk) fun _ a h =>
      Sound.act h a False.elim).cached
  · exact hclear.always (Sound.initial (c := True) n disk) (fun _ a h ha => h.act a fun _ => ha)
      fun _ h => h.last trivial

/-- A process opens the inode, removes its last link and drops it. -/
def unlinks {n : ℕ} (p : Fin n) : List (Action n) :=
  [.iget p (1, 2), .ilock p 0, .step p, .step p, .modify p 0 ⟨2, 0, 0, 0, 0, fun _ => 0⟩,
    .iupdate p 0, .iunlock p 0, .iput p 0]

def linked : Key → Dinode := fun _ => ⟨2, 0, 0, 1, 0, fun _ => 0⟩

theorem always_cached_unlinks :
    ((run System.act (.initial 2 linked) (unlinks 0 ++ [.step 0, .step 0])).disk (1, 2)).type = 0 ∧
    Always System.act LastDropped (.initial 2 linked) (unlinks 0 ++ [.step 0, .step 0]) :=
  ⟨by decide +kernel, (always_cached linked _).2 (by decide +kernel)⟩

/-- The second process finds the inode while the first truncates it. -/
theorem not_always_lastDropped :
    ((run System.act (.initial 2 linked) (unlinks 0 ++ [.iget 1 (1, 2)])).procs 0).pc = .itrunc 0 ∧
    ((run System.act (.initial 2 linked) (unlinks 0 ++ [.iget 1 (1, 2)])).icache 0).ref = 2 ∧
    ¬ Always System.act LastDropped (.initial 2 linked) (unlinks 0 ++ [.iget 1 (1, 2)]) := by
  have hpc : ((run System.act (.initial 2 linked)
      (unlinks 0 ++ [.iget 1 (1, 2)])).procs 0).pc = .itrunc 0 := by decide +kernel
  have href : ((run System.act (.initial 2 linked)
      (unlinks 0 ++ [.iget 1 (1, 2)])).icache 0).ref = 2 := by decide +kernel
  refine ⟨hpc, href, fun h => ?_⟩
  have hone := h _ List.prefix_rfl 0 0 (by rw [hpc]; rfl)
  rw [href] at hone
  cases hone

end Xv6Prng.SharedInodes
