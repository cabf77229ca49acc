import Xv6Prng.GrepMatch
import Xv6Prng.Memmove
import Xv6Prng.Library.Runs

/-!
# How `grep` reads its input

`grep` keeps the unfinished last line of its buffer and reads on behind it. It does so only if
the buffer has a newline: a line that has come only in part is otherwise forgotten. So what it
writes depends on how the reads cut the stream, and it is right exactly if every read brings a
newline as long as newlines are to come.

A run is the list of what the calls of `read` return before the end of the file.
-/

namespace Xv6Prng.Grep

open Function Runs Memmove

abbrev BUFSIZE : ℕ := 1024
abbrev newline : Byte := 0x0a

def strchr (mem : Mem) (c : Byte) : ℕ → ℕ → Option ℕ
  | 0, _ => none
  | fuel + 1, s =>
    if mem s = 0 then none else if mem s = c then some s else strchr mem c fuel (s + 1)

/-- The string that a pointer stands for. -/
def stringAt (mem : Mem) : ℕ → ℕ → List Byte
  | 0, _ => []
  | fuel + 1, s => if mem s = 0 then [] else mem s :: stringAt mem fuel (s + 1)

/-- The inner loop, with the buffer, `p` and what has been written. -/
def lineLoop (pattern : List Byte) : ℕ → Mem → ℕ → List Byte → Mem × ℕ × List Byte
  | 0, buf, p, out => (buf, p, out)
  | fuel + 1, buf, p, out =>
    match strchr buf newline BUFSIZE p with
    | none => (buf, p, out)
    | some q =>
      let buf := Function.update buf q 0
      if matchText pattern (stringAt buf BUFSIZE p) then
        let buf := Function.update buf q newline
        lineLoop pattern fuel buf (q + 1) (out ++ (List.range (q + 1 - p)).map fun i => buf (p + i))
      else lineLoop pattern fuel buf (q + 1) out

structure State where
  buf : Mem
  m : ℕ
  out : List Byte

/-- A turn of the outer loop, after `read` has put `chunk` behind the `m` bytes of the buffer. -/
def turn (pattern : List Byte) (s : State) (chunk : List Byte) : State :=
  let m := s.m + chunk.length
  let buf := Function.update
    (fun i => if s.m ≤ i ∧ i < m then chunk.getD (i - s.m) 0 else s.buf i) m 0
  let (buf, p, out) := lineLoop pattern BUFSIZE buf 0 s.out
  let m := if p = 0 then 0 else m
  if m > 0 then ⟨ulibMemmove buf 0 p (m - p), m - p, out⟩ else ⟨buf, m, out⟩

/-- `buf` is in the bss. -/
def start : State := ⟨fun _ => 0, 0, []⟩

/-- `read` returns something, and no more than was asked for. -/
def ReadOk (s : State) (chunk : List Byte) : Prop :=
  1 ≤ chunk.length ∧ chunk.length ≤ BUFSIZE - s.m - 1

def grep (pattern : List Byte) (reads : List (List Byte)) : List Byte :=
  (run (turn pattern) start reads).out

def lines (l : List Byte) : List (List Byte) := (l.splitOn newline).dropLast

def partialLine (l : List Byte) : List Byte := (l.splitOn newline).getLastD []

def matching (pattern l : List Byte) : List Byte :=
  ((lines l).filter (matchText pattern)).flatMap (· ++ [newline])

section Lines

variable {pattern a r l x : List Byte}

theorem lines_of_notMem (h : newline ∉ l) : lines l = [] := by
  rw [lines, List.splitOn_eq_singleton h]
  rfl

theorem partialLine_of_notMem (h : newline ∉ l) : partialLine l = l := by
  rw [partialLine, List.splitOn_eq_singleton h]
  rfl

theorem lines_append_cons (h : newline ∉ a) : lines (a ++ newline :: r) = a :: lines r := by
  rw [lines, List.splitOn_append_cons_self_of_not_mem h,
    List.dropLast_cons_of_ne_nil (List.splitOn_ne_nil _ _), lines]

theorem partialLine_append_cons (h : newline ∉ a) :
    partialLine (a ++ newline :: r) = partialLine r := by
  obtain ⟨b, bs, hr⟩ := List.exists_cons_of_ne_nil (List.splitOn_ne_nil newline r)
  rw [partialLine, partialLine, List.splitOn_append_cons_self_of_not_mem h, hr]
  simp

@[elab_as_elim] theorem line_induction {P : List Byte → Prop} (tail : ∀ l, newline ∉ l → P l)
    (line : ∀ a r, newline ∉ a → P r → P (a ++ newline :: r)) (l : List Byte) : P l := by
  induction hn : l.length using Nat.strong_induction_on generalizing l with
  | _ n ih =>
    by_cases h : newline ∈ l
    · obtain ⟨a, r, rfl, ha⟩ := List.eq_append_cons_of_mem h
      refine line a r ha (ih r.length ?_ r rfl)
      rw [← hn, List.length_append, List.length_cons]
      omega
    · exact tail l h

theorem matching_of_notMem (h : newline ∉ l) : matching pattern l = [] := by
  rw [matching, lines_of_notMem h]
  rfl

theorem matching_append_cons (h : newline ∉ a) : matching pattern (a ++ newline :: r) =
    (if matchText pattern a then a ++ [newline] else []) ++ matching pattern r := by
  rw [matching, lines_append_cons h, List.filter_cons]
  split_ifs
  · rfl
  · rfl

theorem notMem_partialLine (l : List Byte) : newline ∉ partialLine l := by
  induction l using line_induction with
  | tail l h => rwa [partialLine_of_notMem h]
  | line a r ha ih => rwa [partialLine_append_cons ha]

theorem partialLine_suffix (l : List Byte) : partialLine l <:+ l := by
  induction l using line_induction with
  | tail l h => rw [partialLine_of_notMem h]
  | line a r ha ih =>
    rw [partialLine_append_cons ha]
    exact ih.trans ((List.suffix_cons newline r).trans (List.suffix_append a _))

theorem matching_append (l x : List Byte) :
    matching pattern (l ++ x) = matching pattern l ++ matching pattern (partialLine l ++ x) := by
  induction l using line_induction with
  | tail l h =>
    rw [matching_of_notMem h, partialLine_of_notMem h]
    rfl
  | line a r ha ih =>
    rw [List.append_assoc, List.cons_append, matching_append_cons ha, matching_append_cons ha,
      partialLine_append_cons ha, ih, List.append_assoc]

theorem matching_nil_append (hx : newline ∉ x) (hl : newline ∈ l) :
    matching [] (x ++ l) = x ++ matching [] l := by
  obtain ⟨a, r, rfl, ha⟩ := List.eq_append_cons_of_mem hl
  have hall (w : List Byte) : matchText [] w = true := by
    rw [matchText, if_neg (by simp)]
    cases w <;> simp [matchLoop, matchhere.eq_def]
  rw [← List.append_assoc, matching_append_cons (List.mem_append.not.mpr (not_or.mpr ⟨hx, ha⟩)),
    matching_append_cons ha, hall, hall]
  simp

end Lines

def Holds (mem : Mem) (p : ℕ) (l : List Byte) : Prop := ∀ i ≤ l.length, mem (p + i) = l.getD i 0

section Buffer

variable {a r l : List Byte} {mem mem' buf : Mem} {p fuel : ℕ} {b : Byte}

theorem Holds.nil (h : Holds mem p []) : mem p = 0 := h 0 le_rfl

theorem Holds.head (h : Holds mem p (b :: l)) : mem p = b := h 0 (Nat.zero_le _)

theorem Holds.tail (h : Holds mem p (b :: l)) : Holds mem (p + 1) l := fun i hi => by
  have := h (i + 1) (by simpa using hi)
  rwa [← Nat.add_assoc, Nat.add_right_comm] at this

theorem Holds.drop (h : Holds mem p (a ++ l)) : Holds mem (p + a.length) l := by
  induction a generalizing p with
  | nil => exact h
  | cons b a ih =>
    have := ih h.tail
    rwa [Nat.add_right_comm, Nat.add_assoc] at this

theorem Holds.congr (h : Holds mem p l) (heq : ∀ i, p ≤ i → mem' i = mem i) : Holds mem' p l :=
  fun i hi => (heq _ (Nat.le_add_right p i)).trans (h i hi)

theorem Holds.cut (h : Holds mem p (a ++ l)) : Holds (update mem (p + a.length) 0) p a := by
  intro i hi
  rcases Nat.lt_or_eq_of_le hi with hlt | rfl
  · rw [update_of_ne (by omega), h i (by rw [List.length_append]; omega),
      List.getD_append _ _ _ _ hlt]
  · rw [update_self, List.getD_eq_default _ _ le_rfl]

theorem Holds.map (h : Holds mem p (a ++ l)) :
    (List.range a.length).map (fun i => mem (p + i)) = a := by
  refine List.ext_getElem (by simp) fun i hi _ => ?_
  rw [List.length_map, List.length_range] at hi
  rw [List.getElem_map, List.getElem_range, h i (by rw [List.length_append]; omega),
    List.getD_append _ _ _ _ hi, List.getD_eq_getElem]

theorem strchr_some (h : Holds mem p (a ++ newline :: r)) (h0 : 0 ∉ a) (ha : newline ∉ a)
    (hf : a.length < fuel) : strchr mem newline fuel p = some (p + a.length) := by
  induction a generalizing p fuel with
  | nil =>
    obtain ⟨fuel, rfl⟩ := Nat.exists_eq_succ_of_ne_zero hf.ne_bot
    rw [strchr, h.head, if_neg (by decide), if_pos rfl]
    rfl
  | cons b a ih =>
    obtain ⟨fuel, rfl⟩ := Nat.exists_eq_succ_of_ne_zero (Nat.ne_zero_of_lt hf)
    rw [List.mem_cons, not_or] at h0 ha
    rw [strchr, h.head, if_neg (Ne.symm h0.1), if_neg (Ne.symm ha.1), ih h.tail h0.2 ha.2
      (Nat.lt_of_succ_lt_succ hf), List.length_cons, Nat.add_right_comm, Nat.add_assoc]

theorem strchr_none (h : Holds mem p l) (h0 : 0 ∉ l) (hl : newline ∉ l) :
    strchr mem newline fuel p = none := by
  induction fuel generalizing p l with
  | zero => rfl
  | succ fuel ih =>
    cases l with
    | nil => rw [strchr, if_pos h.nil]
    | cons b l =>
      rw [List.mem_cons, not_or] at h0 hl
      rw [strchr, h.head, if_neg (Ne.symm h0.1), if_neg (Ne.symm hl.1), ih h.tail h0.2 hl.2]

theorem stringAt_eq (h : Holds mem p l) (h0 : 0 ∉ l) (hf : l.length ≤ fuel) :
    stringAt mem fuel p = l := by
  induction fuel generalizing p l with
  | zero => exact (List.length_eq_zero_iff.mp (Nat.le_zero.mp hf)).symm
  | succ fuel ih =>
    cases l with
    | nil => rw [stringAt, if_pos h.nil]
    | cons b l =>
      rw [List.mem_cons, not_or] at h0
      rw [stringAt, h.head, if_neg (Ne.symm h0.1), ih h.tail h0.2 (Nat.le_of_succ_le_succ hf)]

theorem lineLoop_spec (pattern out : List Byte) (h : Holds buf p l) (h0 : 0 ∉ l)
    (hf : l.length < fuel) (hb : l.length < BUFSIZE) :
    ∃ buf', lineLoop pattern fuel buf p out =
        (buf', p + (l.length - (partialLine l).length), out ++ matching pattern l) ∧
      Holds buf' (p + (l.length - (partialLine l).length)) (partialLine l) := by
  induction l using line_induction generalizing fuel buf p out with
  | tail l hl =>
    obtain ⟨fuel, rfl⟩ := Nat.exists_eq_succ_of_ne_zero (Nat.ne_zero_of_lt hf)
    rw [lineLoop, strchr_none h h0 hl, partialLine_of_notMem hl, matching_of_notMem hl,
      Nat.sub_self, List.append_nil]
    exact ⟨buf, rfl, h⟩
  | line a r ha ih =>
    obtain ⟨fuel, rfl⟩ := Nat.exists_eq_succ_of_ne_zero (Nat.ne_zero_of_lt hf)
    rw [List.length_append, List.length_cons] at hf hb
    rw [List.mem_append, List.mem_cons, not_or, not_or] at h0
    have hq : buf (p + a.length) = newline := h.drop.head
    have hrest : Holds buf (p + a.length + 1) r := h.drop.tail
    have hpos : p + (( a ++ newline :: r).length - (partialLine (a ++ newline :: r)).length) =
        p + a.length + 1 + (r.length - (partialLine r).length) := by
      have hle := (partialLine_suffix r).length_le
      rw [partialLine_append_cons ha, List.length_append, List.length_cons]
      omega
    rw [lineLoop, strchr_some h h0.1 ha (by omega), hpos, partialLine_append_cons ha,
      matching_append_cons ha]
    dsimp only
    rw [stringAt_eq h.cut h0.1 (by omega)]
    split_ifs
    · -- the newline is put back
      have hback : update (update buf (p + a.length) 0) (p + a.length) newline = buf := by
        rw [update_idem, ← hq, update_eq_self]
      have hline : Holds buf p ((a ++ [newline]) ++ r) := by
        rwa [List.append_assoc, List.singleton_append]
      have hlen : p + a.length + 1 - p = (a ++ [newline]).length := by
        rw [List.length_append, List.length_singleton]
        omega
      rw [hback, hlen, hline.map, ← List.append_assoc out (a ++ [newline])]
      exact ih _ hrest h0.2.2 (by omega) (by omega)
    · rw [List.nil_append]
      have hcut : Holds (update buf (p + a.length) 0) (p + a.length + 1) r :=
        hrest.congr fun i hi => update_of_ne (by omega) _ _
      exact ih _ hcut h0.2.2 (by omega) (by omega)

end Buffer

def carry (line chunk : List Byte) : List Byte :=
  if (line ++ chunk).contains newline then partialLine (line ++ chunk) else []

def outputs (pattern : List Byte) : List Byte → List (List Byte) → List Byte
  | _, [] => []
  | line, chunk :: reads =>
    matching pattern (line ++ chunk) ++ outputs pattern (carry line chunk) reads

/-- A read without a newline comes only after the last newline. -/
def Carried : List (List Byte) → Prop
  | [] => True
  | chunk :: reads => (newline ∈ chunk ∨ newline ∉ reads.flatten) ∧ Carried reads

def ShortLines (stream : List Byte) : Prop :=
  ∀ w, w <:+: stream → newline ∉ w → w.length ≤ 1022

structure Carries (line : List Byte) (s : State) : Prop where
  m : s.m = line.length
  bytes : ∀ i < line.length, s.buf i = line.getD i 0

section Runs

variable {pattern line chunk : List Byte} {reads : List (List Byte)} {s : State}

theorem carry_of_mem (h : newline ∈ line ++ chunk) :
    carry line chunk = partialLine (line ++ chunk) :=
  if_pos (List.contains_iff_mem.mpr h)

theorem carry_of_notMem (h : newline ∉ line ++ chunk) : carry line chunk = [] :=
  if_neg (mt List.contains_iff_mem.mp h)

theorem notMem_carry (line chunk : List Byte) : newline ∉ carry line chunk := by
  rw [carry]
  split_ifs
  · exact notMem_partialLine _
  · exact List.not_mem_nil

theorem carry_suffix (line chunk : List Byte) : carry line chunk <:+ line ++ chunk := by
  rw [carry]
  split_ifs
  · exact partialLine_suffix _
  · exact List.nil_suffix

theorem length_partialLine_lt {l : List Byte} (h : newline ∈ l) :
    (partialLine l).length < l.length := by
  refine lt_of_le_of_ne (partialLine_suffix l).length_le fun heq => ?_
  rw [← (partialLine_suffix l).eq_of_length heq] at h
  exact notMem_partialLine l h

theorem Carries.turn (pattern : List Byte) (h : Carries line s) (h0 : 0 ∉ line ++ chunk)
    (hread : ReadOk s chunk) :
    Carries (carry line chunk) (Grep.turn pattern s chunk) ∧
      (Grep.turn pattern s chunk).out = s.out ++ matching pattern (line ++ chunk) := by
  obtain ⟨hpos, hlen⟩ := hread
  rw [h.m] at hlen
  have hfit : (line ++ chunk).length < BUFSIZE := by
    rw [List.length_append]
    omega
  have hbuf : Holds (update (fun i => if s.m ≤ i ∧ i < s.m + chunk.length then
      chunk.getD (i - s.m) 0 else s.buf i) (s.m + chunk.length) 0) 0 (line ++ chunk) := by
    intro i hi
    rw [List.length_append] at hi
    rw [Nat.zero_add, h.m]
    rcases Nat.lt_or_eq_of_le hi with hlt | rfl
    · rw [update_of_ne hlt.ne]
      rcases Nat.lt_or_ge i line.length with hline | hchunk
      · rw [if_neg (by omega), h.bytes i hline, List.getD_append _ _ _ _ hline]
      · rw [if_pos ⟨hchunk, hlt⟩, List.getD_append_right _ _ _ _ hchunk]
    · rw [update_self, List.getD_eq_default _ _ (by rw [List.length_append])]
  obtain ⟨buf, hloop, hrest⟩ := lineLoop_spec pattern s.out hbuf h0 hfit hfit
  rw [Nat.zero_add] at hloop hrest
  rw [Grep.turn, hloop]
  dsimp only
  by_cases hn : newline ∈ line ++ chunk
  · have hlt := length_partialLine_lt hn
    have hm : s.m + chunk.length = (line ++ chunk).length := by rw [h.m, List.length_append]
    have hp : (line ++ chunk).length - (partialLine (line ++ chunk)).length ≠ 0 := by omega
    have hpos : (line ++ chunk).length > 0 := by omega
    rw [carry_of_mem hn, if_neg hp, hm, if_pos hpos, Nat.sub_sub_self hlt.le]
    refine ⟨⟨rfl, fun i hi => ?_⟩, rfl⟩
    show ulibMemmove buf 0 _ _ i = _
    rw [ulibMemmove, copyUp_of_le (Nat.zero_le _), moved, placed,
      if_pos ⟨Nat.zero_le i, by omega⟩]
    exact hrest i hi.le
  · rw [carry_of_notMem hn, partialLine_of_notMem hn, Nat.sub_self, if_pos rfl,
      if_neg (Nat.lt_irrefl 0)]
    exact ⟨⟨rfl, fun i hi => absurd hi (Nat.not_lt_zero i)⟩, rfl⟩

theorem Carries.run (h : Carries line s) (hline : newline ∉ line) (h0 : 0 ∉ line ++ reads.flatten)
    (hread : Along (Grep.turn pattern) ReadOk s reads) :
    (Runs.run (Grep.turn pattern) s reads).out = s.out ++ outputs pattern line reads ∧
      ∃ line', Carries line' (Runs.run (Grep.turn pattern) s reads) ∧ newline ∉ line' ∧
        line' <:+ line ++ reads.flatten := by
  induction reads generalizing line s with
  | nil =>
    rw [outputs, List.append_nil]
    exact ⟨rfl, line, h, hline, by simp⟩
  | cons chunk reads ih =>
    rw [List.flatten_cons, ← List.append_assoc, List.mem_append, not_or] at h0
    obtain ⟨hc, hout⟩ := h.turn pattern h0.1 hread.1
    have hsuffix := carry_suffix line chunk
    obtain ⟨hrun, line', hline', hnot, hsuf⟩ := ih hc (notMem_carry line chunk)
      (List.mem_append.not.mpr (not_or.mpr ⟨fun hin => h0.1 (hsuffix.subset hin), h0.2⟩)) hread.2
    refine ⟨?_, line', hline', hnot, ?_⟩
    · rw [run_cons, hrun, hout, outputs, List.append_assoc]
    · rw [List.flatten_cons, ← List.append_assoc]
      obtain ⟨x, hx⟩ := hsuffix
      refine hsuf.trans ⟨x, ?_⟩
      rw [← List.append_assoc, hx]

theorem notMem_append (hline : newline ∉ line) (hchunk : newline ∉ chunk) :
    newline ∉ line ++ chunk := by
  rw [List.mem_append, not_or]
  exact ⟨hline, hchunk⟩

theorem outputs_cons_of_mem (h : newline ∈ chunk) :
    outputs pattern line (chunk :: reads) = matching pattern (line ++ (chunk :: reads).flatten) ↔
      outputs pattern (partialLine (line ++ chunk)) reads =
        matching pattern (partialLine (line ++ chunk) ++ reads.flatten) := by
  rw [outputs, carry_of_mem (List.mem_append_right line h), List.flatten_cons, ← List.append_assoc,
    matching_append (line ++ chunk), List.append_cancel_left_eq]

theorem outputs_cons_of_notMem (hline : newline ∉ line) (h : newline ∉ chunk) :
    outputs pattern line (chunk :: reads) = outputs pattern [] reads := by
  have hnot := notMem_append hline h
  rw [outputs, matching_of_notMem hnot, carry_of_notMem hnot, List.nil_append]

theorem outputs_of_notMem (hline : newline ∉ line) (h : newline ∉ reads.flatten) :
    outputs pattern line reads = [] := by
  induction reads generalizing line with
  | nil => rfl
  | cons chunk reads ih =>
    rw [List.flatten_cons, List.mem_append, not_or] at h
    rw [outputs_cons_of_notMem hline h.1, ih List.not_mem_nil h.2]

theorem length_outputs_le (hline : newline ∉ line) (reads : List (List Byte)) :
    (outputs [] line reads).length ≤ (matching [] (line ++ reads.flatten)).length := by
  induction reads generalizing line with
  | nil => exact Nat.zero_le _
  | cons chunk reads ih =>
    by_cases hmem : newline ∈ chunk
    · have hrest := ih (notMem_partialLine (line ++ chunk))
      rw [outputs, carry_of_mem (List.mem_append_right line hmem), List.flatten_cons,
        ← List.append_assoc, matching_append (line ++ chunk), List.length_append, List.length_append]
      omega
    · rw [outputs_cons_of_notMem hline hmem, List.flatten_cons, ← List.append_assoc]
      have hrest := ih (List.not_mem_nil (a := newline))
      rw [List.nil_append] at hrest
      by_cases hF : newline ∈ reads.flatten
      · rw [matching_nil_append (notMem_append hline hmem) hF, List.length_append]
        omega
      · rw [matching_of_notMem hF] at hrest
        exact hrest.trans (Nat.zero_le _)

theorem outputs_iff (hline : newline ∉ line) (hne : ∀ chunk ∈ reads, 1 ≤ chunk.length) :
    (∀ pattern, outputs pattern line reads = matching pattern (line ++ reads.flatten)) ↔
      Carried reads := by
  induction reads generalizing line with
  | nil =>
    refine iff_of_true (fun pattern => ?_) trivial
    rw [List.flatten_nil, List.append_nil, matching_of_notMem hline, outputs]
  | cons chunk reads ih =>
    have hne' := List.forall_mem_cons.mp hne
    by_cases hmem : newline ∈ chunk
    · simp only [outputs_cons_of_mem hmem]
      rw [ih (notMem_partialLine _) hne'.2, Carried, and_iff_right (Or.inl hmem)]
    · by_cases hF : newline ∈ reads.flatten
      · -- the empty pattern shows that the bytes of this read are missing
        refine iff_of_false (fun h => ?_) fun h => h.1.elim hmem fun hno => hno hF
        have hlen := congrArg List.length (h [])
        have hle := length_outputs_le (List.not_mem_nil (a := newline)) reads
        rw [outputs_cons_of_notMem hline hmem, List.flatten_cons, ← List.append_assoc,
          matching_nil_append (notMem_append hline hmem) hF, List.length_append,
          List.length_append] at hlen
        rw [List.nil_append] at hle
        omega
      · have hall : newline ∉ (chunk :: reads).flatten := notMem_append hmem hF
        rw [Carried, and_iff_right (Or.inr hF), ← ih (List.not_mem_nil (a := newline)) hne'.2]
        refine iff_of_true (fun pattern => ?_) fun pattern => ?_
        · rw [outputs_of_notMem hline hall, matching_of_notMem (notMem_append hline hall)]
        · rw [outputs_of_notMem List.not_mem_nil hF, List.nil_append, matching_of_notMem hF]

theorem length_of_along (h : Along (Grep.turn pattern) ReadOk s reads) :
    ∀ chunk ∈ reads, 1 ≤ chunk.length := by
  induction reads generalizing s with
  | nil => exact fun chunk hc => absurd hc List.not_mem_nil
  | cons chunk reads ih => exact List.forall_mem_cons.mpr ⟨h.1.1, ih h.2⟩

theorem carries_start : Carries [] start :=
  ⟨rfl, fun i hi => absurd hi (Nat.not_lt_zero i)⟩

end Runs

theorem grep_iff {reads : List (List Byte)} (h0 : 0 ∉ reads.flatten)
    (hshort : ShortLines reads.flatten)
    (hread : ∀ pattern, Along (turn pattern) ReadOk start reads) :
    (∀ pattern, Always (turn pattern) (fun s => s.m + 1 < BUFSIZE) start reads) ∧
      ((∀ pattern, grep pattern reads = matching pattern reads.flatten) ↔ Carried reads) := by
  constructor
  · rintro pattern pre ⟨post, rfl⟩
    rw [List.flatten_append, List.mem_append, not_or] at h0
    obtain ⟨-, line, hline, hnot, hsuffix⟩ := carries_start.run List.not_mem_nil h0.1
      ((along_append pre post).mp (hread pattern)).1
    have hle := hshort line (hsuffix.isInfix.trans ⟨[], post.flatten, by simp⟩) hnot
    rw [hline.m]
    exact (Nat.succ_le_succ hle).trans_lt (by decide)
  · rw [← outputs_iff (List.not_mem_nil (a := newline)) (length_of_along (hread []))]
    refine forall_congr' fun pattern => ?_
    rw [grep, (carries_start.run List.not_mem_nil h0 (hread pattern)).1]
    rfl

/-- The line `bc` comes in two reads, each with a newline. -/
theorem grep_iff_twoReads :
    Carried [[0x61, newline, 0x62], [0x63, newline]] ∧
      ∀ pattern, grep pattern [[0x61, newline, 0x62], [0x63, newline]] =
        matching pattern [0x61, newline, 0x62, 0x63, newline] := by
  have hread (pattern : List Byte) :
      Along (turn pattern) ReadOk start [[0x61, newline, 0x62], [0x63, newline]] := by
    have hcarries := (carries_start.turn pattern
      (show (0 : Byte) ∉ [] ++ [0x61, newline, 0x62] by decide) ⟨by decide, by decide⟩).1
    refine ⟨⟨by decide, by decide⟩, ⟨by decide, ?_⟩, trivial⟩
    rw [hcarries.m]
    decide
  have hcarried : Carried [[0x61, newline, 0x62], [0x63, newline]] :=
    ⟨Or.inl (by decide), Or.inl (by decide), trivial⟩
  exact ⟨hcarried, (grep_iff (by decide) (fun _ hw _ => hw.length_le.trans (by decide))
    hread).2.mpr hcarried⟩

/-- The line `ab` comes in two reads: nothing of it is left when its end has come, and the pattern
`a` does not match what is left. -/
theorem not_grep :
    (∀ pattern, Along (turn pattern) ReadOk start [[0x61], [0x62, newline]]) ∧
      grep [0x61] [[0x61], [0x62, newline]] = [] ∧
      matching [0x61] [0x61, 0x62, newline] = [0x61, 0x62, newline] := by
  have hone (pattern : List Byte) :
      Carries [] (turn pattern start [0x61]) ∧ (turn pattern start [0x61]).out = [] := by
    obtain ⟨hc, hout⟩ := carries_start.turn pattern
      (show (0 : Byte) ∉ [] ++ [0x61] by decide) ⟨by decide, by decide⟩
    exact ⟨hc, hout.trans (matching_of_notMem (by decide))⟩
  have hread (pattern : List Byte) :
      Along (turn pattern) ReadOk start [[0x61], [0x62, newline]] := by
    refine ⟨⟨by decide, by decide⟩, ⟨by decide, ?_⟩, trivial⟩
    rw [(hone pattern).1.m]
    decide
  refine ⟨hread, ?_, ?_⟩
  · rw [grep, (carries_start.run List.not_mem_nil (by decide) (hread [0x61])).1,
      outputs_cons_of_notMem List.not_mem_nil (by decide), outputs, outputs]
    show [] ++ (matching [0x61] ([0x62] ++ newline :: []) ++ []) = []
    rw [matching_append_cons (by decide), matching_of_notMem List.not_mem_nil]
    simp [matchText, matchLoop, matchhere.eq_def]
  · show matching [0x61] ([0x61, 0x62] ++ newline :: []) = _
    rw [matching_append_cons (by decide), matching_of_notMem List.not_mem_nil]
    simp [matchText, matchLoop, matchhere.eq_def]

end Xv6Prng.Grep
