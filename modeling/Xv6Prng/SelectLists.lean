import Xv6Prng.Pipe
import Xv6Prng.Select

/-!
# The wait lists that `select` leaves

`sys_select` with the lists it works on: each pipe has a list for readers and one for writers, the
console has one. `pipeselect` and `pipeclrsel` choose the list of a pipe by the value in
`proc->selid`, which the process overwrites for every descriptor.

No lock protects the lists: `addselid` and `clearselid` of other processes run at any time, one
statement after the other. Two of them on one list can take the same free entry. As long as they
keep apart, what is still to be done on a list is as good as done: the lists with every operation
completed follow a machine in which each operation is one step.
-/

namespace Xv6Prng.Select

open Runs Ipc OpenFiles Function

inductive Desc (κ : Type)
  | pipe (k : κ)
  | console
  deriving DecidableEq

inductive ListId (κ : Type)
  | read (k : κ)
  | write (k : κ)
  | console
  deriving DecidableEq

section Lists

variable {κ ι : Type} [DecidableEq κ] [DecidableEq ι]

abbrev Lists (κ ι : Type) := ListId κ → Selproc ι

/-- The list that `pipeselect` and `pipeclrsel` take for a value of `*selid`; `consoleselect` and
`consoleclrsel` have one list. -/
def Desc.list (selid : Word) : Desc κ → ListId κ
  | .pipe k => if selid = 5 then .read k else .write k
  | .console => .console

def pipeselect (me : ι) (L : Selproc ι) : Selproc ι :=
  if L.selcount < NSELPROC then addselid L me else L

/-- `consoleselect` does not look at `selcount`. -/
def fileselect (me : ι) (lists : Lists κ ι) (d : Desc κ) (selid : Word) : Lists κ ι :=
  let l := d.list selid
  match d with
  | .pipe _ => Function.update lists l (pipeselect me (lists l))
  | .console => Function.update lists l (addselid (lists l) me)

def fileclrsel (me : ι) (lists : Lists κ ι) (d : Desc κ) (selid : Word) : Lists κ ι :=
  let l := d.list selid
  Function.update lists l (clearselid (lists l) me)

/-- `consolewriteable` returns 1. -/
def Helper.answer (r : ℤ) : Helper × Ptr (Desc κ) → ℤ
  | (.filewriteable, .file .console) => 1
  | _ => r

structure Selector (κ ι : Type) where
  call : Call
  lists : Lists κ ι

variable (me : ι) (a : Args) (ofile : ℕ → Ptr (Desc κ))

/-- What the helper does to the lists; `fileselect` comes after the assignment to `selid`. -/
def Selector.effect (s : Selector κ ι) (c : Call) : Helper × Ptr (Desc κ) → Lists κ ι
  | (.fileselect, .file d) => fileselect me s.lists d c.selid
  | (.fileclrsel, .file d) => fileclrsel me s.lists d c.selid
  | _ => s.lists

/-- A step of the process, in which a test of a descriptor answers `r`. -/
def Selector.step (s : Selector κ ι) (r : ℤ) : Selector κ ι :=
  match s.call.request a ofile with
  | none => { s with call := s.call.next a 0 }
  | some q =>
    let c := s.call.next a (Helper.answer r q)
    ⟨c, s.effect me c q⟩

inductive Op
  | select
  | clrsel

/-- Where a process is in `addselid` or `clearselid`. -/
inductive Work
  | add (i : ℕ)
  | put (i : Fin NSELPROC)
  | inc
  | clear (i : ℕ)
  | erase (i : Fin NSELPROC)
  | dec (i : Fin NSELPROC)

/-- `pipeselect` looks at `selcount` first. -/
def Op.begins (L : Selproc ι) : Op → ListId κ → Option Work
  | .select, .console => some (.add 0)
  | .select, _ => if L.selcount < NSELPROC then some (.add 0) else none
  | .clrsel, _ => some (.clear 0)

/-- One statement, and what is left to do. -/
def Work.step (q : ι) (L : Selproc ι) : Work → Selproc ι × Option Work
  | .add i =>
    if h : i < NSELPROC then
      (L, some (if L.sel ⟨i, h⟩ = none then .put ⟨i, h⟩ else .add (i + 1)))
    else (L, none)
  | .put i =>
    ({ L with sel := update L.sel i (some q), lk := update L.lk i (some q) }, some .inc)
  | .inc => ({ L with selcount := L.selcount + 1 }, none)
  | .clear i =>
    if h : i < NSELPROC then
      (L, some (if L.sel ⟨i, h⟩ = some q then .erase ⟨i, h⟩ else .clear (i + 1)))
    else (L, none)
  | .erase i => ({ L with sel := update L.sel i none }, some (.dec i))
  | .dec i => ({ L with selcount := L.selcount - 1 }, some (.clear (i + 1)))

structure Race (κ ι : Type) where
  call : Call
  lists : Lists κ ι
  work : ι → Option (ListId κ × Work)

def Race.start (selid : Word) (lists : Lists κ ι) : Race κ ι := ⟨.start selid, lists, fun _ => none⟩

/-- A step of `sys_select`; another process calls `fileselect` or `fileclrsel`; a process that is
in the middle of one does its next statement. -/
inductive Action (κ ι : Type)
  | step (r : ℤ)
  | begin (q : ι) (l : ListId κ) (op : Op)
  | work (q : ι)

/-- The list that a request works on. -/
def Call.target (c : Call) : Helper × Ptr (Desc κ) → Option (ListId κ × Op)
  | (.fileselect, .file d) => some (d.list c.selid, .select)
  | (.fileclrsel, .file d) => some (d.list c.selid, .clrsel)
  | _ => none

def Race.begin (s : Race κ ι) (q : ι) (l : ListId κ) (op : Op) : Race κ ι :=
  { s with work := update s.work q ((op.begins (s.lists l) l).map fun w => (l, w)) }

def Race.act (s : Race κ ι) : Action κ ι → Race κ ι
  | .step r =>
    if (s.work me).isSome then s
    else
      match s.call.request a ofile with
      | none => { s with call := s.call.next a 0 }
      | some q =>
        let c := s.call.next a (Helper.answer r q)
        match c.target q with
        | none => { s with call := c }
        | some (l, op) => ({ s with call := c } : Race κ ι).begin me l op
  | .begin q l op => if q = me ∨ (s.work q).isSome then s else s.begin q l op
  | .work q =>
    match s.work q with
    | none => s
    | some (l, w) =>
      let r := w.step q (s.lists l)
      { s with
        lists := update s.lists l r.1
        work := update s.work q (r.2.map fun w => (l, w)) }

def Race.Idle (s : Race κ ι) (l : ListId κ) : Prop := ∀ q w, s.work q ≠ some (l, w)

instance [Fintype ι] (s : Race κ ι) (l : ListId κ) : Decidable (s.Idle l) :=
  decidable_of_iff (∀ q, (s.work q).map Prod.fst ≠ some l) (by simp [Race.Idle])

/-- The list on which a process begins to work. -/
def Race.begun (s : Race κ ι) : Action κ ι → Option (ListId κ)
  | .step r =>
    if (s.work me).isSome then none
    else (s.call.request a ofile).bind fun q =>
      ((s.call.next a (Helper.answer r q)).target q).map Prod.fst
  | .begin q l _ => if q = me ∨ (s.work q).isSome then none else some l
  | .work _ => none

/-- Nobody begins to work on a list while another is in the middle of it. -/
def Race.Apart (s : Race κ ι) (x : Action κ ι) : Prop := ∀ l ∈ s.begun me a ofile x, s.Idle l

instance [Fintype ι] (s : Race κ ι) (x : Action κ ι) : Decidable (s.Apart me a ofile x) :=
  inferInstanceAs (Decidable (∀ l ∈ s.begun me a ofile x, s.Idle l))

end Lists

section Contents

variable {ι : Type}

def entries (sel : Fin NSELPROC → Option ι) : ℕ := ∑ i, if (sel i).isSome then 1 else 0

def Counted (L : Selproc ι) : Prop := L.selcount = entries L.sel

def Has (L : Selproc ι) (p : ι) : Prop := ∃ i, L.sel i = some p

variable {L : Selproc ι} {p q : ι}

theorem entries_update (sel : Fin NSELPROC → Option ι) (i : Fin NSELPROC) (v : Option ι) :
    entries (update sel i v) + (if (sel i).isSome then 1 else 0) =
      entries sel + if v.isSome then 1 else 0 :=
  sum_update (fun v : Option ι => if v.isSome then 1 else 0) sel i v

theorem Has.of_addselid (h : Has (addselid L q) p) : Has L p ∨ p = q := by
  obtain ⟨i, hi⟩ := h
  unfold addselid at hi
  split at hi
  · next j hj =>
    dsimp only at hi
    by_cases hij : i = j
    · rw [hij, update_self] at hi
      exact .inr (Option.some.inj hi).symm
    · rw [update_of_ne hij] at hi
      exact .inl ⟨i, hi⟩
  · exact .inl ⟨i, hi⟩

theorem Counted.addselid (h : Counted L) : Counted (addselid L p) := by
  unfold Ipc.addselid
  split
  · next j hj =>
    have hfree : L.sel j = none := by simpa using List.find?_some hj
    have hentries := entries_update L.sel j (some p)
    rw [hfree] at hentries
    simp only [Option.isSome_none, Option.isSome_some, Bool.false_eq_true, if_false, if_true,
      Nat.add_zero] at hentries
    rw [Counted, hentries, h]
    rfl
  · exact h

variable [DecidableEq ι]

theorem clearEntry_sel (i j : Fin NSELPROC) : (clearEntry p L i).sel j =
    if j = i ∧ L.sel j = some p then none else L.sel j := by
  unfold clearEntry
  by_cases hij : j = i
  · subst hij
    split_ifs <;> simp_all
  · split_ifs <;> simp_all

theorem Counted.clearEntry (h : Counted L) (i : Fin NSELPROC) : Counted (clearEntry p L i) := by
  unfold Ipc.clearEntry
  split_ifs with hi
  · have hentries := entries_update L.sel i none
    rw [hi] at hentries
    simp only [Option.isSome_none, Option.isSome_some, Bool.false_eq_true, if_false, if_true,
      Nat.add_zero] at hentries
    simp only [Counted] at h ⊢
    omega
  · exact h

theorem foldl_clearEntry_sel (l : List (Fin NSELPROC)) (L : Selproc ι) (j : Fin NSELPROC) :
    (l.foldl (clearEntry p) L).sel j = if j ∈ l ∧ L.sel j = some p then none else L.sel j := by
  induction l generalizing L with
  | nil => simp
  | cons i l ih =>
    rw [List.foldl_cons, ih, clearEntry_sel]
    simp only [List.mem_cons]
    grind

theorem clearselid_sel (j : Fin NSELPROC) :
    (clearselid L p).sel j = if L.sel j = some p then none else L.sel j := by
  rw [clearselid, foldl_clearEntry_sel]
  simp

theorem Has.of_clearselid (h : Has (clearselid L q) p) : Has L p ∧ p ≠ q := by
  obtain ⟨i, hi⟩ := h
  rw [clearselid_sel] at hi
  split_ifs at hi with hq
  refine ⟨⟨i, hi⟩, ?_⟩
  rintro rfl
  exact hq hi

theorem Counted.clearselid (h : Counted L) : Counted (clearselid L p) := by
  unfold Ipc.clearselid
  generalize List.finRange NSELPROC = l
  induction l generalizing L with
  | nil => exact h
  | cons i l ih => exact ih (h.clearEntry i)

section Apply

variable {κ : Type}

/-- The operation in one step. -/
def Op.apply (q : ι) (L : Selproc ι) : Op → ListId κ → Selproc ι
  | .select, .console => addselid L q
  | .select, _ => pipeselect q L
  | .clrsel, _ => clearselid L q

theorem counted_apply (h : Counted L) (op : Op) (l : ListId κ) (q : ι) :
    Counted (op.apply q L l) := by
  have hadd : Counted (pipeselect q L) := by
    unfold pipeselect
    split_ifs
    · exact h.addselid
    · exact h
  cases op with
  | clrsel => exact h.clearselid
  | select => cases l <;> first | exact hadd | exact h.addselid

theorem has_apply {op : Op} (hp : p ≠ q) (l : ListId κ)
    (h : Has (op.apply q L l) p) : Has L p := by
  have hadd : Has (pipeselect q L) p → Has L p := by
    unfold pipeselect
    split_ifs
    · exact fun h => h.of_addselid.resolve_right hp
    · exact id
  cases op with
  | clrsel => exact h.of_clearselid.1
  | select => cases l <;> first | exact hadd h | exact h.of_addselid.resolve_right hp

variable [DecidableEq κ]

theorem effect_eq (me : ι) (s : Selector κ ι) (c : Call) (r : Helper × Ptr (Desc κ)) :
    s.effect me c r = match c.target r with
      | some (l, op) => update s.lists l (op.apply me (s.lists l) l)
      | none => s.lists := by
  obtain ⟨f, p⟩ := r
  cases f <;> cases p <;> try rfl
  next d =>
    cases d with
    | console => rfl
    | pipe k =>
      simp only [Selector.effect, Call.target, fileselect, Desc.list]
      split_ifs <;> rfl

end Apply

end Contents

variable {m : Mode} {x : ℕ}

section Cleanup

variable {κ ι : Type} {me : ι} {a : Args} {ofile : Fin NOFILE → Option (Desc κ)}
  {beyond : ℕ → Ptr (Desc κ)} {s : Selector κ ι}

def Args.Last (a : Args) (x : ℕ) (m : Mode) : Prop :=
  a.selected x m = true ∧ ∀ x' m', a.selected x' m' = true → rank x' m' ≤ rank x m

def Uniform (a : Args) (ofile : Fin NOFILE → Option (Desc κ)) : Prop :=
  ∀ fd m k x m', a.selected fd.val m = true → ofile fd = some (.pipe k) → a.Last x m' → m = m'

structure Clean (me : ι) (s : Race κ ι) : Prop where
  gone : s.call.pc = .done → ∀ l, ¬ Has (s.lists l) me
  counted : ∀ l, s.Idle l → Counted (s.lists l)

def Pc.mayHave : Pc → ℕ → Prop
  | .check _ _, _ | .done, _ => False
  | .register x m, k => k < rank x m
  | .sleep, _ | .asleep, _ => True
  | .clear x m, k => rank x m ≤ k

def Pc.assigned : Pc → ℕ → Prop
  | .check _ _, _ | .done, _ => False
  | .register x m, k => k < rank x m
  | .sleep, _ | .asleep, _ | .clear _ _, _ => True

/-- A descriptor by which the process may be in the list. -/
def Entered (a : Args) (ofile : Fin NOFILE → Option (Desc κ)) (pc : Pc) (l : ListId κ) : Prop :=
  ∃ fd m d, a.selected fd.val m = true ∧ ofile fd = some d ∧ d.list m.selid = l ∧
    pc.mayHave (rank fd.val m)

/-- `selid` is that of the last descriptor that has been registered. -/
def Assigned (a : Args) (c : Call) : Prop :=
  ∀ x m, a.selected x m = true → c.pc.assigned (rank x m) →
    (∀ x' m', a.selected x' m' = true → c.pc.assigned (rank x' m') → rank x' m' ≤ rank x m) →
    c.selid = m.selid

structure Tidy (me : ι) (a : Args) (ofile : Fin NOFILE → Option (Desc κ)) (s : Selector κ ι) :
    Prop where
  counted : ∀ l, Counted (s.lists l)
  lists : ∀ l, Has (s.lists l) me → Entered a ofile s.call.pc l
  selid : Assigned a s.call

theorem rank_ne {x' : ℕ} {m' : Mode} (hsel : ¬ a.selected x m = true)
    (hsel' : a.selected x' m' = true) : rank x m ≠ rank x' m' := by
  intro heq
  obtain ⟨rfl, rfl⟩ := rank_inj heq
  exact hsel hsel'

theorem after_eq (point : ℕ → Mode → Pc) (x : ℕ) (m : Mode) :
    ∃ x' m', m.after point x = point x' m' ∧ rank x' m' = rank x m + 1 := by
  cases m
  · exact ⟨x, .write, rfl, rfl⟩
  · exact ⟨x + 1, .read, rfl, by simp only [rank]; omega⟩

theorem rank_lt {x' : ℕ} {m' : Mode} (hsel : a.selected x' m' = true) (hx : ¬ (x : ℤ) < a.nfds) :
    rank x' m' < rank x m := by
  simp only [Args.selected, Bool.decide_and, Bool.and_eq_true, decide_eq_true_eq] at hsel
  cases m <;> cases m' <;> simp only [rank] <;> omega

theorem Tidy.gone (h : Tidy me a ofile s) (hdone : s.call.pc = .done) (l : ListId κ) :
    ¬ Has (s.lists l) me := by
  intro hl
  obtain ⟨fd, m, d, _, _, _, hmay⟩ := h.lists l hl
  rw [hdone] at hmay
  exact hmay

theorem Entered.mono {pc pc' : Pc} {l : ListId κ} (h : Entered a ofile pc l)
    (hmay : ∀ x m, a.selected x m = true → pc.mayHave (rank x m) → pc'.mayHave (rank x m)) :
    Entered a ofile pc' l := by
  obtain ⟨fd, m, d, hsel, hfd, hlist, hold⟩ := h
  exact ⟨fd, m, d, hsel, hfd, hlist, hmay fd.val m hsel hold⟩

theorem Tidy.move (h : Tidy me a ofile s) {c : Call}
    (hmay : ∀ x m, a.selected x m = true → s.call.pc.mayHave (rank x m) → c.pc.mayHave (rank x m))
    (hselid : Assigned a c) : Tidy me a ofile ⟨c, s.lists⟩ :=
  ⟨h.counted, fun l hl => (h.lists l hl).mono hmay, hselid⟩

theorem exists_last (hsel : a.selected x m = true) : ∃ x' m', a.Last x' m' := by
  classical
  have hbound : ∀ x m, a.selected x m = true → rank x m ≤ 2 * a.nfds.toNat :=
    fun x m hsel => (rank_lt_of_selected hsel).le
  obtain ⟨x', m', hsel', hrank⟩ := Nat.findGreatest_spec
    (P := fun k => ∃ x m, a.selected x m = true ∧ rank x m = k) (hbound x m hsel) ⟨x, m, hsel, rfl⟩
  refine ⟨x', m', hsel', fun y my hy => ?_⟩
  rw [hrank]
  exact Nat.le_findGreatest (hbound y my hy) ⟨y, my, hy, rfl⟩

theorem Tidy.list_eq (h : Tidy me a ofile s) {fd : Fin NOFILE} {d : Desc κ} {my : Mode}
    (hpc : s.call.pc = .clear x m) (hu : Uniform a ofile) (hsel : a.selected fd.val my = true)
    (hfd : ofile fd = some d) : d.list s.call.selid = d.list my.selid := by
  cases d with
  | console => rfl
  | pipe k =>
    obtain ⟨x', m', hlast⟩ := exists_last hsel
    have hselid := h.selid x' m' hlast.1 (by rw [hpc]; trivial) fun y my hy _ => hlast.2 y my hy
    rw [hselid, hu fd my k x' m' hsel hfd hlast]

theorem request_unselected {c : Call} {file : ℕ → Ptr (Desc κ)}
    (hpc : c.pc = .register x m ∨ c.pc = .clear x m) (hsel : ¬ a.selected x m = true) :
    c.request a file = none := by
  rcases hpc with hpc | hpc <;> simp only [Call.request, hpc, hsel] <;> rfl

variable [DecidableEq κ]

theorem Tidy.update (h : Tidy me a ofile s) {c : Call} {l : ListId κ} {L : Selproc ι}
    (hcounted : Counted L) (hself : Has L me → Entered a ofile c.pc l)
    (hothers : ∀ l' ≠ l, Entered a ofile s.call.pc l' → Entered a ofile c.pc l')
    (hselid : Assigned a c) : Tidy me a ofile ⟨c, update s.lists l L⟩ where
  counted := (forall_update_iff s.lists fun _ L => Counted L).mpr
    ⟨hcounted, fun l' _ => h.counted l'⟩
  lists := (forall_update_iff s.lists fun l L => Has L me → Entered a ofile c.pc l).mpr
    ⟨hself, fun l' hl' hhas => hothers l' hl' (h.lists l' hhas)⟩
  selid := hselid

variable [DecidableEq ι]

theorem next_check_pc (c : Call) (hpc : c.pc = .check x m) (r : ℤ) :
    (c.next a r).pc = if (x : ℤ) < a.nfds then m.after .check x
      else if c.found then .done else .register 0 .read := by
  simp only [Call.next, hpc]
  split_ifs <;> rfl

theorem not_assigned_check (c : Call) (hpc : c.pc = .check x m) (r : ℤ) (k : ℕ) :
    ¬ (c.next a r).pc.assigned k := by
  rw [next_check_pc c hpc]
  split_ifs
  · obtain ⟨x', m', hafter, _⟩ := after_eq .check x m
    rw [hafter]
    exact id
  · exact id
  · exact Nat.not_lt_zero k

theorem Tidy.register (h : Tidy me a ofile s) (hpc : s.call.pc = .register x m)
    (ha : Opened a ofile) (r : ℤ) :
    Tidy me a ofile (s.step me a (ofileAt ofile beyond) r) := by
  have hselid := h.selid
  rw [Assigned, hpc] at hselid
  by_cases hx : (x : ℤ) < a.nfds
  · obtain ⟨x', m', hafter, hrank⟩ := after_eq .register x m
    have hnext : ∀ r', s.call.next a r' = { s.call with
        selid := if a.selected x m then m.selid else s.call.selid, pc := .register x' m' } := by
      intro r'
      simp only [Call.next, hpc, if_pos hx, hafter]
    by_cases hsel : a.selected x m = true
    · obtain ⟨fd, d, hfd, hptr, rfl⟩ := ofileAt_selected ha beyond hsel
      have hreq : s.call.request a (ofileAt ofile beyond) = some (.fileselect, .file d) := by
        simp only [Call.request, hpc, hptr, hsel, if_true]
      simp only [Selector.step, hreq, hnext, if_pos hsel, effect_eq, Call.target]
      refine h.update (counted_apply (h.counted _) _ _ _)
        (fun _ => ⟨fd, m, d, hsel, hfd, rfl, ?_⟩)
        (fun l _ hl => hl.mono fun y my _ hold => ?_) fun y my hy hassigned hlast => ?_
      · simp only [Pc.mayHave]
        omega
      · rw [hpc] at hold
        simp only [Pc.mayHave] at hold ⊢
        omega
      · have hle := hlast fd.val m hsel (by simp only [Pc.assigned]; omega)
        simp only [Pc.assigned] at hassigned
        obtain ⟨_, rfl⟩ := rank_inj (show rank fd.val m = rank y my by omega)
        rfl
    · simp only [Selector.step, request_unselected (.inl hpc) hsel, hnext, if_neg hsel]
      refine h.move (fun y my _ hold => ?_) fun y my hy hassigned hlast => ?_
      · rw [hpc] at hold
        simp only [Pc.mayHave] at hold ⊢
        omega
      · have hne := rank_ne hsel hy
        simp only [Pc.assigned] at hassigned hlast
        refine hselid y my hy (by simp only [Pc.assigned]; omega) fun y' my' hy' hassigned' => ?_
        simp only [Pc.assigned] at hassigned'
        exact hlast y' my' hy' (by omega)
  · have hnext : ∀ r', s.call.next a r' = { s.call with pc := .sleep } := by
      intro r'
      simp only [Call.next, hpc, if_neg hx]
    have hsel : ¬ a.selected x m = true := fun hsel => hx (lt_of_selected hsel)
    simp only [Selector.step, request_unselected (.inl hpc) hsel, hnext]
    refine h.move (fun _ _ _ _ => trivial) fun y my hy _ hlast => ?_
    refine hselid y my hy (rank_lt hy hx) fun y' my' hy' _ => hlast y' my' hy' trivial

theorem Tidy.clear (h : Tidy me a ofile s) (hpc : s.call.pc = .clear x m) (ha : Opened a ofile)
    (hu : Uniform a ofile) (r : ℤ) :
    Tidy me a ofile (s.step me a (ofileAt ofile beyond) r) := by
  have hselid := h.selid
  rw [Assigned, hpc] at hselid
  by_cases hx : (x : ℤ) < a.nfds
  · obtain ⟨x', m', hafter, hrank⟩ := after_eq .clear x m
    have hnext : ∀ r', s.call.next a r' = { s.call with pc := .clear x' m' } := by
      intro r'
      simp only [Call.next, hpc, if_pos hx, hafter]
    by_cases hsel : a.selected x m = true
    · obtain ⟨fd, d, hfd, hptr, rfl⟩ := ofileAt_selected ha beyond hsel
      have hreq : s.call.request a (ofileAt ofile beyond) = some (.fileclrsel, .file d) := by
        simp only [Call.request, hpc, hptr, hsel, if_true]
      simp only [Selector.step, hreq, hnext, effect_eq, Call.target]
      refine h.update (counted_apply (h.counted _) _ _ _)
        (fun hl => absurd rfl hl.of_clearselid.2) (fun l hl => ?_) hselid
      rintro ⟨fd', my, dy, hy, hfdy, hlist, hold⟩
      refine ⟨fd', my, dy, hy, hfdy, hlist, ?_⟩
      -- the entry is not that of this descriptor, which has just been cleared
      have hne : rank fd.val m ≠ rank fd'.val my := by
        intro heq
        obtain ⟨hval, rfl⟩ := rank_inj heq
        obtain rfl := Fin.ext hval
        rw [hfd] at hfdy
        obtain rfl := Option.some.inj hfdy
        exact hl (hlist.symm.trans (h.list_eq hpc hu hsel hfd).symm)
      rw [hpc] at hold
      simp only [Pc.mayHave] at hold ⊢
      omega
    · simp only [Selector.step, request_unselected (.inr hpc) hsel, hnext]
      refine h.move (fun y my hy hold => ?_) hselid
      have hne := rank_ne hsel hy
      rw [hpc] at hold
      simp only [Pc.mayHave] at hold ⊢
      omega
  · have hnext : ∀ r', s.call.next a r' = { s.call with pc := .check 0 .read } := by
      intro r'
      simp only [Call.next, hpc, if_neg hx]
    have hsel : ¬ a.selected x m = true := fun hsel => hx (lt_of_selected hsel)
    simp only [Selector.step, request_unselected (.inr hpc) hsel, hnext]
    refine h.move (fun y my hy hold => ?_) fun _ _ _ hassigned => hassigned.elim
    rw [hpc] at hold
    exact absurd hold (Nat.not_le.mpr (rank_lt hy hx))

theorem Tidy.step (h : Tidy me a ofile s) (ha : Opened a ofile) (hu : Uniform a ofile) (r : ℤ) :
    Tidy me a ofile (s.step me a (ofileAt ofile beyond) r) := by
  cases hpc : s.call.pc with
  | check x m =>
    have hmove : ∀ r', Tidy me a ofile ⟨s.call.next a r', s.lists⟩ := by
      intro r'
      have hnone := not_assigned_check (a := a) s.call hpc r'
      refine h.move (fun x' m' _ hold => ?_) fun x' m' _ hold => absurd hold (hnone _)
      rw [hpc] at hold
      exact hold.elim
    unfold Selector.step
    dsimp only
    split
    · exact hmove 0
    · next q hq =>
      have hlists : ∀ c, s.effect me c q = s.lists := by
        intro c
        simp only [Call.request, hpc] at hq
        split_ifs at hq
        rw [← Option.some.inj hq]
        cases m <;> rfl
      rw [hlists]
      exact hmove _
  | register x m => exact h.register hpc ha r
  | sleep =>
    have hselid := h.selid
    rw [Assigned, hpc] at hselid
    simp only [Selector.step, Call.request, Call.next, hpc]
    exact h.move (fun _ _ _ _ => trivial) hselid
  | asleep =>
    have hselid := h.selid
    rw [Assigned, hpc] at hselid
    simp only [Selector.step, Call.request, Call.next, hpc]
    exact h.move (fun _ _ _ _ => Nat.zero_le _) hselid
  | clear x m => exact h.clear hpc ha hu r
  | done =>
    simp only [Selector.step, Call.request, Call.next, hpc]
    exact h

/-- What the rest of the operation makes of the list. -/
def Work.Leads (q : ι) (L L' : Selproc ι) : Work → Prop
  | .add i => (∀ j : Fin NSELPROC, j.val < i → L.sel j ≠ none) ∧ L' = addselid L q
  | .put i =>
    L.sel i = none ∧ L' = ⟨update L.sel i (some q), update L.lk i (some q), L.selcount + 1⟩
  | .inc => L' = { L with selcount := L.selcount + 1 }
  | .clear i => L' = ((List.finRange NSELPROC).drop i).foldl (clearEntry q) L
  | .erase i => L.sel i = some q ∧ L' = ((List.finRange NSELPROC).drop i).foldl (clearEntry q) L
  | .dec i => L' = ((List.finRange NSELPROC).drop (i + 1)).foldl (clearEntry q)
      { L with selcount := L.selcount - 1 }

section Leads

variable {q : ι} {L L' : Selproc ι} {w : Work}

omit [DecidableEq ι] in
theorem addselid_first {i : Fin NSELPROC} (hbefore : ∀ j : Fin NSELPROC, j.val < i → L.sel j ≠ none)
    (hi : L.sel i = none) :
    addselid L q = ⟨update L.sel i (some q), update L.lk i (some q), L.selcount + 1⟩ := by
  have hfind : (List.finRange NSELPROC).find? (fun i => L.sel i = none) = some i := by
    rw [List.find?_eq_some_iff_getElem]
    refine ⟨by simpa using hi, i, by simp, by simp, fun j hj => ?_⟩
    simpa using hbefore ⟨j, hj.trans i.isLt⟩ hj
  rw [addselid, hfind]

omit [DecidableEq ι] in
theorem addselid_full (hfull : ∀ j, L.sel j ≠ none) : addselid L q = L := by
  have hfind : (List.finRange NSELPROC).find? (fun i => L.sel i = none) = none :=
    List.find?_eq_none.mpr fun j _ => by simpa using hfull j
  rw [addselid, hfind]

theorem drop_finRange {i : ℕ} (hi : i < NSELPROC) :
    (List.finRange NSELPROC).drop i = ⟨i, hi⟩ :: (List.finRange NSELPROC).drop (i + 1) := by
  rw [List.drop_eq_getElem_cons (by simpa using hi)]
  simp

theorem Work.Leads.step (h : w.Leads q L L') :
    match (w.step q L).2 with
    | some w' => w'.Leads q (w.step q L).1 L'
    | none => (w.step q L).1 = L' := by
  cases w with
  | add i =>
    simp only [Work.step]
    split_ifs with hi hfree
    · exact ⟨hfree, h.2.trans (addselid_first h.1 hfree)⟩
    · refine ⟨fun j hj => ?_, h.2⟩
      rcases Nat.lt_succ_iff_lt_or_eq.mp hj with hlt | heq
      · exact h.1 j hlt
      · rwa [show j = ⟨i, hi⟩ from Fin.ext heq]
    · exact (h.2.trans (addselid_full fun j => h.1 j (j.isLt.trans_le (Nat.not_lt.mp hi)))).symm
  | put i => exact h.2
  | inc => exact h.symm
  | clear i =>
    simp only [Work.step]
    split_ifs with hi hme
    · exact ⟨hme, h⟩
    · refine h.trans ?_
      rw [drop_finRange hi, List.foldl_cons, clearEntry, if_neg hme]
    · refine (h.trans ?_).symm
      rw [List.drop_of_length_le (by simpa using hi)]
      rfl
  | erase i =>
    refine h.2.trans ?_
    rw [drop_finRange i.isLt, List.foldl_cons, clearEntry, if_pos h.1]
    rfl
  | dec i => exact h

omit [DecidableEq κ] in
theorem Op.leads (op : Op) (l : ListId κ) (q : ι) (L : Selproc ι) :
    match op.begins L l with
    | some w => w.Leads q L (op.apply q L l)
    | none => L = op.apply q L l := by
  have hadd : (Work.add 0).Leads q L (addselid L q) :=
    ⟨fun _ hj => absurd hj (Nat.not_lt_zero _), rfl⟩
  cases op with
  | clrsel => exact rfl
  | select =>
    cases l with
    | console => exact hadd
    | read k | write k =>
      simp only [Op.begins, Op.apply, pipeselect]
      split_ifs
      · exact hadd
      · rfl

theorem Work.Leads.has {p : ι} (h : w.Leads q L L') (hp : p ≠ q) (hL : Has L p) : Has L' p := by
  obtain ⟨j, hj⟩ := hL
  have hclear (l : List (Fin NSELPROC)) (L₁ : Selproc ι) (hj₁ : L₁.sel j = some p) :
      Has (l.foldl (clearEntry q) L₁) p := by
    refine ⟨j, ?_⟩
    rw [foldl_clearEntry_sel, if_neg fun hq => hp (Option.some.inj (hj₁.symm.trans hq.2)), hj₁]
  have hput (i : Fin NSELPROC) (hi : L.sel i = none) : update L.sel i (some q) j = some p := by
    have hji : j ≠ i := by
      rintro rfl
      rw [hi] at hj
      cases hj
    rw [update_of_ne hji, hj]
  cases w with
  | add i =>
    rw [h.2, addselid]
    split
    · next i hi => exact ⟨j, hput i (by simpa using List.find?_some hi)⟩
    · exact ⟨j, hj⟩
  | put i =>
    rw [h.2]
    exact ⟨j, hput i h.1⟩
  | inc =>
    rw [h]
    exact ⟨j, hj⟩
  | clear i =>
    rw [h]
    exact hclear _ _ hj
  | erase i =>
    rw [h.2]
    exact hclear _ _ hj
  | dec i =>
    rw [h]
    exact hclear _ _ hj

end Leads

/-- The lists with every operation completed. -/
structure Settled (me : ι) (a : Args) (ofile : Fin NOFILE → Option (Desc κ)) (s : Race κ ι)
    (lists : Lists κ ι) : Prop where
  tidy : Tidy me a ofile ⟨s.call, lists⟩
  idle : ∀ l, s.Idle l → lists l = s.lists l
  leads : ∀ q l w, s.work q = some (l, w) → w.Leads q (s.lists l) (lists l)
  alone : ∀ q q' l w w', s.work q = some (l, w) → s.work q' = some (l, w') → q = q'
  returned : s.call.pc = .done → s.work me = none

section Simulation

variable {s : Race κ ι} {lists : Lists κ ι} {q : ι} {l : ListId κ} {op : Op}

section Settled

variable (h : Settled me a ofile s lists)
include h

omit [DecidableEq κ] in
theorem Settled.clean : Clean me s where
  gone hdone l hl := by
    refine h.tidy.gone hdone l ?_
    by_cases hidle : s.Idle l
    · change Has (lists l) me
      rwa [h.idle l hidle]
    · -- another process is at work on the list, and leaves the entry
      simp only [Race.Idle, not_forall, not_not] at hidle
      obtain ⟨q, w, hq⟩ := hidle
      refine (h.leads q l w hq).has ?_ hl
      rintro rfl
      rw [h.returned hdone] at hq
      cases hq
  counted l hidle := h.idle l hidle ▸ h.tidy.counted l

/-- A process goes on with the list `l`, on which it is alone. -/
theorem Settled.go {c : Call} {L L' : Selproc ι} {o : Option Work}
    (htidy : Tidy me a ofile ⟨c, update lists l L'⟩)
    (hothers : ∀ q' w, s.work q' = some (l, w) → q' = q)
    (hone : ∀ l' w, s.work q = some (l', w) → l' = l)
    (hleads : match o with
      | some w => w.Leads q L L'
      | none => L = L')
    (hreturned : c.pc = .done → update s.work q (o.map fun w => (l, w)) me = none) :
    Settled me a ofile ⟨c, update s.lists l L, update s.work q (o.map fun w => (l, w))⟩
      (update lists l L') := by
  have hwork : ∀ q' l' w', update s.work q (o.map fun w => (l, w)) q' = some (l', w') →
      q' = q ∧ l' = l ∧ o = some w' ∨ q' ≠ q ∧ l' ≠ l ∧ s.work q' = some (l', w') := by
    intro q' l' w' hq'
    by_cases hq : q' = q
    · subst hq
      rw [update_self, Option.map_eq_some_iff] at hq'
      obtain ⟨w, ho, hw⟩ := hq'
      obtain ⟨rfl, rfl⟩ := Prod.mk.inj hw
      exact .inl ⟨rfl, rfl, ho⟩
    · rw [update_of_ne hq] at hq'
      refine .inr ⟨hq, ?_, hq'⟩
      rintro rfl
      exact hq (hothers q' w' hq')
  constructor
  · exact htidy
  · intro l' hidle
    dsimp only
    by_cases hl : l' = l
    · subst hl
      rw [update_self, update_self]
      cases o with
      | none => exact hleads.symm
      | some w => exact absurd (update_self ..) (hidle q w)
    · rw [update_of_ne hl, update_of_ne hl]
      refine h.idle l' fun q' w' hq' => hidle q' w' ?_
      have hq : q' ≠ q := by
        rintro rfl
        exact hl (hone l' w' hq')
      exact (update_of_ne hq ..).trans hq'
  · intro q' l' w' hq'
    dsimp only
    obtain ⟨rfl, rfl, rfl⟩ | ⟨_, hl, hq'⟩ := hwork q' l' w' hq'
    · rw [update_self, update_self]
      exact hleads
    · rw [update_of_ne hl, update_of_ne hl]
      exact h.leads q' l' w' hq'
  · intro q₁ q₂ l' w₁ w₂ h₁ h₂
    obtain ⟨rfl, hl₁, _⟩ | ⟨_, hl₁, h₁⟩ := hwork q₁ l' w₁ h₁ <;>
      obtain ⟨rfl, hl₂, _⟩ | ⟨_, hl₂, h₂⟩ := hwork q₂ l' w₂ h₂
    · rfl
    · exact absurd hl₁ hl₂
    · exact absurd hl₂ hl₁
    · exact h.alone q₁ q₂ l' w₁ w₂ h₁ h₂
  · exact hreturned

theorem Settled.work (file : ℕ → Ptr (Desc κ)) (q : ι) :
    Settled me a ofile (s.act me a file (.work q)) lists := by
  simp only [Race.act]
  split
  · exact h
  · next l w hq =>
    have htidy : Tidy me a ofile ⟨s.call, update lists l (lists l)⟩ := by
      rw [update_eq_self]
      exact h.tidy
    have hgo := h.go htidy
      (fun q' w' hq' => h.alone q' q l w' w hq' hq)
      (fun l' w' hq' => by rw [hq] at hq'; exact (Prod.mk.inj (Option.some.inj hq')).1.symm)
      (h.leads q l w hq).step fun hdone => by
        have hme : me ≠ q := by
          rintro rfl
          rw [h.returned hdone] at hq
          cases hq
        rw [update_of_ne hme, h.returned hdone]
    rwa [update_eq_self] at hgo

theorem Settled.begin {c : Call}
    (htidy : Tidy me a ofile ⟨c, update lists l (op.apply q (lists l) l)⟩) (hidle : s.Idle l)
    (hq : s.work q = none) (hreturned : c.pc = .done → q ≠ me ∧ s.work me = none) :
    Settled me a ofile (Race.begin { s with call := c } q l op)
      (update lists l (op.apply q (lists l) l)) := by
  rw [h.idle l hidle] at htidy ⊢
  have hgo := h.go htidy (fun q' w hq' => absurd hq' (hidle q' w))
    (fun l' w hq' => by rw [hq] at hq'; cases hq') (op.leads l q (s.lists l))
    fun hdone => by rw [update_of_ne (hreturned hdone).1.symm, (hreturned hdone).2]
  rwa [update_eq_self] at hgo

end Settled

omit [DecidableEq κ] [DecidableEq ι] in
theorem not_done_of_target {c : Call} {file : ℕ → Ptr (Desc κ)} {r : Helper × Ptr (Desc κ)} {v : ℤ}
    (hreq : c.request a file = some r) (htarget : (c.next a v).target r = some (l, op)) :
    (c.next a v).pc ≠ .done := by
  cases hpc : c.pc with
  | check x m =>
    simp only [Call.request, hpc] at hreq
    split_ifs at hreq
    obtain rfl := Option.some.inj hreq
    cases m <;> cases htarget
  | register x m | clear x m =>
    simp only [Call.next, hpc]
    cases m <;> split_ifs <;> exact Pc.noConfusion
  | sleep | asleep | done =>
    simp only [Call.request, hpc] at hreq
    cases hreq

theorem Settled.act (h : Settled me a ofile s lists) (ha : Opened a ofile) (hu : Uniform a ofile)
    {x : Action κ ι} (hx : s.Apart me a (ofileAt ofile beyond) x) :
    ∃ lists', Settled me a ofile (s.act me a (ofileAt ofile beyond) x) lists' := by
  cases x with
  | work q => exact ⟨lists, h.work _ q⟩
  | begin q l op =>
    simp only [Race.act]
    split_ifs with hq
    · exact ⟨lists, h⟩
    · obtain ⟨hme, hnone⟩ := not_or.mp hq
      refine ⟨_, h.begin (c := s.call) (h.tidy.update (counted_apply (h.tidy.counted l) op l q)
        (fun hl => h.tidy.lists l (has_apply (Ne.symm hme) l hl)) (fun _ _ => id) h.tidy.selid)
        (hx l (if_neg hq)) (by simpa using hnone) fun hdone => ⟨hme, h.returned hdone⟩⟩
  | step r =>
    simp only [Race.act]
    split_ifs with hbusy
    · exact ⟨lists, h⟩
    · have hnone : s.work me = none := by simpa using hbusy
      have htidy : Tidy me a ofile
          (Selector.step me a (ofileAt ofile beyond) ⟨s.call, lists⟩ r) := h.tidy.step ha hu r
      simp only [Selector.step] at htidy
      cases hreq : s.call.request a (ofileAt ofile beyond) with
      | none =>
        rw [hreq] at htidy
        exact ⟨lists, htidy, h.idle, h.leads, h.alone, fun _ => hnone⟩
      | some f =>
        rw [hreq] at htidy
        simp only [effect_eq] at htidy
        dsimp only
        cases htarget : (s.call.next a (Helper.answer r f)).target f with
        | none =>
          rw [htarget] at htidy
          exact ⟨lists, htidy, h.idle, h.leads, h.alone, fun _ => hnone⟩
        | some lop =>
          obtain ⟨l, op⟩ := lop
          rw [htarget] at htidy
          have hbegun : s.begun me a (ofileAt ofile beyond) (.step r) = some l := by
            simp only [Race.begun, hreq, hnone, Option.bind_some, htarget]
            rfl
          exact ⟨_, h.begin htidy (hx l hbegun) hnone
            fun hdone => absurd hdone (not_done_of_target hreq htarget)⟩

end Simulation

/-- From lists that are counted and without the process, in every run in which nobody begins to work
on a list while another is in the middle of it. -/
theorem always_clean (beyond : ℕ → Ptr (Desc κ)) (ha : Opened a ofile) (hu : Uniform a ofile)
    (lists : Lists κ ι) (hlists : ∀ l, Counted (lists l) ∧ ¬ Has (lists l) me) (selid : Word)
    (xs : List (Action κ ι))
    (hxs : Along (Race.act me a (ofileAt ofile beyond)) (Race.Apart me a (ofileAt ofile beyond))
      (.start selid lists) xs) :
    Always (Race.act me a (ofileAt ofile beyond)) (Clean me) (.start selid lists) xs := by
  have hstart : Settled me a ofile (.start selid lists) lists :=
    { tidy := ⟨fun l => (hlists l).1, fun l hl => absurd hl (hlists l).2, fun _ _ _ h => h.elim⟩
      idle _ _ := rfl
      leads _ _ _ h := nomatch h
      alone _ _ _ _ _ h := nomatch h
      returned _ := rfl }
  exact hxs.always (I := fun s => ∃ lists, Settled me a ofile s lists) ⟨lists, hstart⟩
    (fun _ _ ⟨_, h⟩ hx => h.act ha hu hx) fun _ ⟨_, h⟩ => h.clean

def noLists : Lists κ ι := fun _ => initselproc ⟨fun _ => none, fun _ => none, 0⟩

omit [DecidableEq κ] [DecidableEq ι] in
theorem noLists_free (me : ι) (l : ListId κ) :
    Counted (noLists l : Selproc ι) ∧ ¬ Has (noLists l) me := by
  constructor
  · simp [Counted, entries, noLists, initselproc]
  · simp [Has, noLists, initselproc]

end Cleanup

def twoPipes (fd : Fin NOFILE) : Option (Desc Bool) :=
  if fd.val = 0 then some (.pipe false) else if fd.val = 1 then some (.pipe true) else none

/-- Steps of the process with answer `r`, each with what it has to do on a list. -/
def roundsOf (n : ℕ) (r : ℤ) : List (Action Bool Bool) :=
  (List.replicate n (.step r)).flatMap fun x => x :: List.replicate 19 (.work false)

def otherSelect (l : ListId Bool) (op : Op) : List (Action Bool Bool) :=
  .begin true l op :: List.replicate 19 (.work true)

/-- The process waits for two pipes to read; another selects the first of them before it and clears
its entry while it sleeps. -/
theorem always_clean_readers : Opened ⟨2, 3, 0⟩ twoPipes ∧ Uniform ⟨2, 3, 0⟩ twoPipes ∧
    Always (Race.act false ⟨2, 3, 0⟩ (ofileAt twoPipes fun _ => .wild)) (Clean false)
      (.start 0 noLists) (otherSelect (.read false) .select ++ roundsOf 11 0 ++
        otherSelect (.read false) .clrsel ++ roundsOf 12 1) := by
  have hmode : ∀ x m, (⟨2, 3, 0⟩ : Args).selected x m = true → (x : ℤ) < 2 ∧ m = .read := by
    intro x m hsel
    refine ⟨lt_of_selected hsel, ?_⟩
    cases m with
    | read => rfl
    | write =>
      simp only [Args.selected, Args.fds, fdIsset_zero] at hsel
      simp at hsel
  have hopen : Opened ⟨2, 3, 0⟩ twoPipes := by
    refine ⟨by decide, fun x m h hsel => ?_⟩
    have hx := (hmode x m hsel).1
    obtain rfl | rfl : x = 0 ∨ x = 1 := by omega
    · rfl
    · rfl
  have huniform : Uniform ⟨2, 3, 0⟩ twoPipes := by
    intro fd m k x m' hsel _ hlast
    rw [(hmode _ m hsel).2, (hmode x m' hlast.1).2]
  exact ⟨hopen, huniform,
    always_clean _ hopen huniform noLists (noLists_free false) 0 _ (by decide +kernel)⟩

/-- With a pipe to read and a pipe to write the process stays in the list of the first. Two
processes that select a pipe at the same time take the same entry and count it twice. -/
theorem not_clean_mixed :
    ¬ Always (Race.act false ⟨2, 1, 2⟩ (ofileAt twoPipes fun _ => .wild)) (Clean false)
      (.start 0 noLists) (roundsOf 17 0 ++ roundsOf 5 1) ∧
    ¬ Always (Race.act false ⟨1, 1, 0⟩ (ofileAt twoPipes fun _ => .wild)) (Clean false)
      (.start 0 noLists) (roundsOf 3 0 ++
        [.begin true (.read false) .select, .work true, .step 0] ++
        List.replicate 3 (.work false) ++ List.replicate 2 (.work true)) := by
  constructor
  · intro h
    have hclean := h _ List.prefix_rfl
    exact hclean.gone (by decide +kernel) (.read false) ⟨0, by decide +kernel⟩
  · intro h
    have hclean := h _ List.prefix_rfl
    have hcounted := hclean.counted (.read false) (by decide +kernel)
    revert hcounted
    unfold Counted
    decide +kernel

end Xv6Prng.Select
