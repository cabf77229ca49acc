import Xv6Prng.Console
import Xv6Prng.Library.Runs
import Xv6Prng.Library.WrapRing

/-!
# The line discipline of the console

Any number of processes read the console while keys come in. A step is one key of `consoleintr`
or one turn of the loop of `consoleread`; both hold `cons.lock`. The reference is a line editor
over lists: what has been committed, what is being edited, and how much has been read.

A `^D` that a read meets after it has delivered something is put back. `ended` lists the `^D`s
that have ended a read, by their places in the committed bytes, and `keptBack` those put back.
-/

namespace Xv6Prng.Console

open Runs WrapRing

structure Editor where
  committed : List Byte
  line : List Byte
  consumed : ℕ

namespace Editor

variable (ed : Editor)

def empty : Editor := ⟨[], [], 0⟩

def pending : ℕ := ed.committed.length - ed.consumed + ed.line.length

def commit : Editor := { ed with committed := ed.committed ++ ed.line, line := [] }

def insert (c : Byte) : Editor :=
  let ed := { ed with line := ed.line ++ [c] }
  if c = 10 ∨ c = 4 ∨ ed.pending = INPUT_BUF then ed.commit else ed

def key (c : Byte) : Editor :=
  if c = 16 then ed
  else if c = 21 then { ed with line := [] }
  else if c = 8 ∨ c = 127 then { ed with line := ed.line.dropLast }
  else if c ≠ 0 ∧ ed.pending < INPUT_BUF then ed.insert (if c = 13 then 10 else c)
  else ed

def consume : Editor := { ed with consumed := ed.consumed + 1 }

end Editor

structure Reader where
  target : Word
  n : Word

structure System (ι : Type) where
  input : Input
  reader : ι → Option Reader
  returned : List (ι × Word)
  delivered : List (ι × Byte)
  editor : Editor
  ended : List ℕ
  keptBack : List ℕ

inductive Action (ι : Type)
  | key (c : Byte)
  | read (p : ι) (n : Word)
  | turn (p : ι) (killed : Bool)

def System.start (ι : Type) : System ι :=
  ⟨⟨fun _ => 0, 0, 0, 0⟩, fun _ => none, [], [], Editor.empty, [], []⟩

namespace System

variable {ι : Type} [DecidableEq ι] (s : System ι)

def finish (p : ι) (r : Word) : System ι :=
  { s with reader := Function.update s.reader p none, returned := s.returned ++ [(p, r)] }

def putBack (I : Input) : System ι :=
  { s with
    input := { I with r := I.r - 1 }
    ended := s.ended ++ [s.editor.consumed]
    keptBack := s.keptBack ++ [s.editor.consumed] }

def endOfFile (I : Input) : System ι :=
  { s with input := I, editor := s.editor.consume, ended := s.ended ++ [s.editor.consumed] }

def deliver (p : ι) (x : Reader) (c : Byte) (I : Input) : System ι :=
  { s with
    input := I
    editor := s.editor.consume
    delivered := s.delivered ++ [(p, c)]
    reader := Function.update s.reader p (some { x with n := x.n - 1 }) }

def turn (p : ι) (killed : Bool) (x : Reader) : System ι :=
  if x.n.toInt > 0 then
    if s.input.r = s.input.w then if killed then s.finish p (-1) else s
    else
      let c := s.input.take.1
      let I := s.input.take.2
      if c = 4 then
        if x.n < x.target then (s.putBack I).finish p (x.target - x.n)
        else (s.endOfFile I).finish p (x.target - x.n)
      else if c = 10 then (s.deliver p x c I).finish p (x.target - (x.n - 1))
      else s.deliver p x c I
  else s.finish p (x.target - x.n)

def step (s : System ι) : Action ι → System ι
  | .key c => { s with input := (s.input.key c).1, editor := s.editor.key c }
  | .read p n =>
    match s.reader p with
    | none => { s with reader := Function.update s.reader p (some ⟨n, n⟩) }
    | some _ => s
  | .turn p killed =>
    match s.reader p with
    | none => s
    | some x => s.turn p killed x

end System

structure Shows (ed : Editor) (I : Input) : Prop where
  carries : Carries I.buf I.r I.e (ed.committed ++ ed.line) (ed.committed.take ed.consumed)
  w_eq : I.w = BitVec.ofNat 32 ed.committed.length
  consumed_le : ed.consumed ≤ ed.committed.length
  no_newline : 10 ∉ ed.line

namespace Shows

variable {ed : Editor} {I : Input}

section Shows

variable (h : Shows ed I)
include h

theorem length_taken : (ed.committed.take ed.consumed).length = ed.consumed := by
  rw [List.length_take, Nat.min_eq_left h.consumed_le]

theorem toNat_sub : (I.e - I.r).toNat = ed.pending := by
  have hle := h.consumed_le
  rw [h.carries.toNat_sub (by decide), h.length_taken, List.length_append, Editor.pending]
  omega

theorem pending_le : ed.pending ≤ INPUT_BUF := by
  have hbound := h.carries.bound
  have hle := h.consumed_le
  rw [h.length_taken, List.length_append] at hbound
  rw [Editor.pending]
  omega

theorem r_eq : I.r = BitVec.ofNat 32 ed.consumed := by
  rw [h.carries.nread_eq, h.length_taken]

theorem e_eq : I.e = BitVec.ofNat 32 (ed.committed.length + ed.line.length) := by
  rw [h.carries.nwrite_eq, List.length_append]

theorem toNat_sub_line : (I.e - I.w).toNat = ed.line.length := by
  have hpending := h.pending_le
  rw [Editor.pending, INPUT_BUF] at hpending
  rw [h.e_eq, h.w_eq, toNat_ofNat_sub (Nat.le_add_right _ _) (by omega)]
  omega

theorem ordered : (I.w - I.r).toNat ≤ (I.e - I.r).toNat ∧ (I.e - I.r).toNat ≤ INPUT_BUF := by
  have hpending := h.pending_le
  rw [h.toNat_sub]
  refine ⟨?_, hpending⟩
  rw [Editor.pending, INPUT_BUF] at hpending
  rw [h.w_eq, h.r_eq, toNat_ofNat_sub h.consumed_le (by omega), Editor.pending]
  omega

theorem e_eq_w_iff : I.e = I.w ↔ ed.line = [] := by
  rw [← List.length_eq_zero_iff, ← h.toNat_sub_line]
  constructor
  · intro heq
    rw [heq, BitVec.sub_self, BitVec.toNat_zero]
  · intro hzero
    bv_omega

theorem r_eq_w_iff : I.r = I.w ↔ ed.consumed = ed.committed.length := by
  have hpending := h.pending_le
  rw [Editor.pending, INPUT_BUF] at hpending
  have hsub := toNat_ofNat_sub (w := 32) h.consumed_le (by omega)
  rw [← h.w_eq, ← h.r_eq] at hsub
  constructor
  · intro heq
    rw [heq, BitVec.sub_self, BitVec.toNat_zero] at hsub
    have hle := h.consumed_le
    omega
  · intro heq
    rw [h.r_eq, h.w_eq, heq]

end Shows

section Last

variable {c : Byte} {line : List Byte} (h : Shows { ed with line := line ++ [c] } I)
include h

theorem carries_last :
    Carries I.buf I.r I.e (ed.committed ++ line ++ [c]) (ed.committed.take ed.consumed) := by
  rw [List.append_assoc]
  exact h.carries

theorem taken_le : (ed.committed.take ed.consumed).length ≤ (ed.committed ++ line).length := by
  rw [List.length_append]
  exact (h.length_taken.trans_le h.consumed_le).trans (Nat.le_add_right _ _)

theorem backspace : Shows { ed with line := line } I.backspace :=
  ⟨h.carries_last.unstore h.taken_le, h.w_eq, h.consumed_le,
    fun hmem => h.no_newline (List.mem_append_left _ hmem)⟩

theorem buf_last : I.buf (Input.index (I.e - 1)) = c :=
  h.carries_last.last h.taken_le (by decide)

end Last

theorem killLine {line : List Byte} (h : Shows { ed with line := line } I) :
    Shows { ed with line := [] } (Input.killLine line.length I) := by
  induction line using List.reverseRecOn generalizing I with
  | nil => exact h
  | append_singleton line c ih =>
    have hne : I.e ≠ I.w := by
      rw [Ne, h.e_eq_w_iff]
      exact List.append_ne_nil_of_right_ne_nil line (List.cons_ne_nil c [])
    have hc : I.buf (Input.index (I.e - 1)) ≠ 10 := by
      rw [h.buf_last]
      exact fun heq => h.no_newline (List.mem_append_right _ (heq ▸ List.mem_singleton_self c))
    rw [List.length_append, List.length_singleton, Input.killLine, if_pos ⟨hne, hc⟩]
    exact ih h.backspace

theorem put (h : Shows ed I) (hroom : ed.pending < INPUT_BUF) (c : Byte) :
    Carries (I.put c).buf I.r (I.put c).e (ed.committed ++ (ed.line ++ [c]))
      (ed.committed.take ed.consumed) := by
  have hle := h.consumed_le
  rw [← List.append_assoc]
  refine h.carries.store (by decide) ?_ c
  rw [h.length_taken, List.length_append]
  rw [Editor.pending] at hroom
  omega

theorem insert (h : Shows ed I) (hroom : ed.pending < INPUT_BUF) (c : Byte) :
    Shows (ed.insert c) (if (I.put c).lineEnd c then ((I.put c).commit, true)
      else (I.put c, false)).1 := by
  have hput := h.put hroom c
  have hle := h.consumed_le
  have hfull : (I.put c).e = I.r + BitVec.ofNat 32 INPUT_BUF ↔
      ({ ed with line := ed.line ++ [c] } : Editor).pending = INPUT_BUF := by
    rw [hput.full_iff (by decide), h.length_taken, Editor.pending, List.length_append]
    dsimp only
    omega
  have hend : (I.put c).lineEnd c ↔
      c = 10 ∨ c = 4 ∨ ({ ed with line := ed.line ++ [c] } : Editor).pending = INPUT_BUF :=
    or_congr Iff.rfl (or_congr Iff.rfl hfull)
  rw [Editor.insert]
  by_cases hc : (I.put c).lineEnd c
  · rw [if_pos hc, if_pos (hend.mp hc)]
    refine ⟨?_, hput.nwrite_eq, ?_, List.not_mem_nil⟩
    · rw [Editor.commit, List.append_nil, List.take_append_of_le_length hle]
      exact hput
    · exact hle.trans (by rw [Editor.commit, List.length_append]; exact Nat.le_add_right _ _)
  · rw [if_neg hc, if_neg (mt hend.mpr hc)]
    refine ⟨hput, h.w_eq, hle, fun hmem => ?_⟩
    rcases List.mem_append.mp hmem with hmem | hmem
    · exact h.no_newline hmem
    · exact hc (.inl (List.mem_singleton.mp hmem).symm)

theorem key (h : Shows ed I) (c : Byte) : Shows (ed.key c) (I.key c).1 := by
  rw [Editor.key, Input.key]
  by_cases hp : c = 16
  · rw [if_pos hp, if_pos hp]
    exact h
  rw [if_neg hp, if_neg hp]
  by_cases hu : c = 21
  · rw [if_pos hu, if_pos hu, h.toNat_sub_line]
    exact h.killLine
  rw [if_neg hu, if_neg hu]
  by_cases hh : c = 8 ∨ c = 127
  · rw [if_pos hh, if_pos hh]
    by_cases hline : I.e = I.w
    · rw [if_neg (not_not.mpr hline)]
      have hnil := h.e_eq_w_iff.mp hline
      obtain ⟨committed, line, consumed⟩ := ed
      obtain rfl : line = [] := hnil
      exact h
    · rw [if_pos hline]
      obtain ⟨committed, line, consumed⟩ := ed
      obtain ⟨line, b, rfl⟩ := (List.eq_nil_or_concat' line).resolve_left (mt h.e_eq_w_iff.mpr hline)
      dsimp only
      rw [List.dropLast_concat]
      have hlast : Shows { (⟨committed, [], consumed⟩ : Editor) with line := line ++ [b] } I := h
      exact hlast.backspace
  rw [if_neg hh, if_neg hh, Input.store, h.toNat_sub]
  by_cases hroom : c ≠ 0 ∧ ed.pending < INPUT_BUF
  · rw [if_pos hroom, if_pos hroom]
    exact h.insert hroom.2 _
  · rw [if_neg hroom, if_neg hroom]
    exact h

theorem take (h : Shows ed I) (hne : I.r ≠ I.w) :
    ed.committed[ed.consumed]? = some I.take.1 ∧ Shows ed.consume I.take.2 := by
  have hlt : ed.consumed < ed.committed.length :=
    lt_of_le_of_ne h.consumed_le (mt h.r_eq_w_iff.mpr hne)
  have hbyte : I.take.1 = ed.committed[ed.consumed] := by
    have hcell : Input.index I.r = Fin.ofNat INPUT_BUF ed.consumed := by
      rw [h.r_eq]
      exact cell_ofNat (by decide) ed.consumed
    rw [Input.take, hcell, h.carries.data_eq ed.consumed (by rw [List.length_append]; omega)
      h.length_taken.le, List.getElem_append_left hlt]
  refine ⟨by rw [hbyte, List.getElem?_eq_getElem hlt], ?_, h.w_eq, hlt, h.no_newline⟩
  have htake := h.carries.take (by decide) (by rw [h.length_taken, List.length_append]; omega)
  have hnext : ed.committed.take ed.consumed ++ [I.take.1] = ed.committed.take (ed.consumed + 1) := by
    rw [hbyte, List.take_append_getElem hlt]
  exact hnext ▸ htake

end Shows

variable {ι : Type}

structure Sound (s : System ι) : Prop where
  shows : Shows s.editor s.input
  delivered : s.delivered.map Prod.snd =
    (s.editor.committed.take s.editor.consumed).filter (· ≠ 4)
  ended : ∀ i, s.ended.count i = s.keptBack.count i +
    if i < s.editor.consumed ∧ s.editor.committed[i]? = some 4 then 1 else 0

theorem Editor.committed_key_prefix (ed : Editor) (c : Byte) :
    ed.committed <+: (ed.key c).committed ∧ (ed.key c).consumed = ed.consumed := by
  have hinsert (b : Byte) :
      ed.committed <+: (ed.insert b).committed ∧ (ed.insert b).consumed = ed.consumed := by
    rw [Editor.insert]
    split_ifs
    · exact ⟨List.prefix_append _ _, rfl⟩
    · exact ⟨List.prefix_rfl, rfl⟩
  rw [Editor.key]
  split_ifs
  · exact ⟨List.prefix_rfl, rfl⟩
  · exact ⟨List.prefix_rfl, rfl⟩
  · exact ⟨List.prefix_rfl, rfl⟩
  · exact hinsert _
  · exact hinsert _
  · exact ⟨List.prefix_rfl, rfl⟩

namespace Sound

variable {s : System ι}

theorem start : Sound (System.start ι) where
  shows := ⟨carries_empty _, rfl, le_rfl, List.not_mem_nil⟩
  delivered := rfl
  ended i := by simp [System.start, Editor.empty]

theorem key [DecidableEq ι] (h : Sound s) (c : Byte) : Sound (s.step (.key c)) := by
  obtain ⟨⟨rest, hrest⟩, hconsumed⟩ := s.editor.committed_key_prefix c
  have hle := h.shows.consumed_le
  refine ⟨h.shows.key c, ?_, fun i => ?_⟩
  · change s.delivered.map Prod.snd = _
    rw [System.step, hconsumed, ← hrest, List.take_append_of_le_length hle]
    exact h.delivered
  · change s.ended.count i = s.keptBack.count i + _
    rw [System.step, hconsumed, h.ended i, ← hrest]
    refine congrArg _ (if_congr (and_congr_right fun hi => ?_) rfl rfl)
    rw [List.getElem?_append_left (hi.trans_le hle)]

theorem finish [DecidableEq ι] (h : Sound s) (p : ι) (r : Word) : Sound (s.finish p r) :=
  ⟨h.shows, h.delivered, h.ended⟩

theorem filter_take_succ {l : List Byte} {k : ℕ} {c : Byte} (hc : l[k]? = some c) :
    (l.take (k + 1)).filter (· ≠ 4) = (l.take k).filter (· ≠ 4) ++ [c].filter (· ≠ 4) := by
  rw [List.take_add_one, hc, List.filter_append]
  rfl

theorem consumed_succ {l : List Byte} {k : ℕ} {c : Byte} (hc : l[k]? = some c) (i : ℕ) :
    (if i < k + 1 ∧ l[i]? = some 4 then 1 else 0) =
      (if i < k ∧ l[i]? = some 4 then 1 else 0) + if i = k ∧ c = 4 then 1 else 0 := by
  by_cases hi : i = k
  · subst hi
    simp [hc]
  · have hlt : i < k + 1 ↔ i < k := by omega
    simp [hi, hlt]

theorem putBack (h : Sound s) : Sound (s.putBack s.input.take.2) := by
  have hback : ({ s.input.take.2 with r := s.input.take.2.r - 1 } : Input) = s.input := by
    have hr : s.input.r + 1 - 1 = s.input.r := BitVec.add_sub_cancel _ _
    simp only [Input.take, hr]
  refine ⟨?_, h.delivered, fun i => ?_⟩
  · rw [System.putBack, hback]
    exact h.shows
  · rw [System.putBack, List.count_append, List.count_append, h.ended i]
    dsimp only
    omega

theorem endOfFile (h : Sound s) (hne : s.input.r ≠ s.input.w) (hc : s.input.take.1 = 4) :
    Sound (s.endOfFile s.input.take.2) := by
  obtain ⟨hbyte, hshows⟩ := h.shows.take hne
  refine ⟨hshows, ?_, fun i => ?_⟩
  · change s.delivered.map Prod.snd = _
    rw [System.endOfFile, Editor.consume, filter_take_succ hbyte, hc, h.delivered]
    exact (List.append_nil _).symm
  · have hone : [s.editor.consumed].count i =
        if i = s.editor.consumed ∧ s.input.take.1 = 4 then 1 else 0 := by
      rw [List.count_singleton, beq_eq_decide, hc]
      exact if_congr (by rw [decide_eq_true_eq, eq_comm, and_iff_left rfl]) rfl rfl
    rw [System.endOfFile, Editor.consume, consumed_succ hbyte, List.count_append, h.ended i, hone]
    exact Nat.add_assoc _ _ _

theorem deliver [DecidableEq ι] (h : Sound s) (hne : s.input.r ≠ s.input.w)
    (hc : s.input.take.1 ≠ 4) (p : ι)
    (x : Reader) : Sound (s.deliver p x s.input.take.1 s.input.take.2) := by
  obtain ⟨hbyte, hshows⟩ := h.shows.take hne
  refine ⟨hshows, ?_, fun i => ?_⟩
  · have hfilter : [s.input.take.1].filter (· ≠ 4) = [s.input.take.1] :=
      List.filter_cons_of_pos (decide_eq_true hc)
    rw [System.deliver, Editor.consume, filter_take_succ hbyte, List.map_append, h.delivered,
      hfilter]
    rfl
  · have hnot : ¬ (i = s.editor.consumed ∧ s.input.take.1 = 4) := fun hi => hc hi.2
    change s.ended.count i = _
    rw [System.deliver, Editor.consume, consumed_succ hbyte, if_neg hnot, Nat.add_zero]
    exact h.ended i

theorem turn [DecidableEq ι] (h : Sound s) (p : ι) (killed : Bool) (x : Reader) :
    Sound (s.turn p killed x) := by
  rw [System.turn]
  dsimp only
  split_ifs with _ hempty _ hc _ _
  · exact h.finish p _
  · exact h
  · exact h.putBack.finish p _
  · exact (h.endOfFile hempty hc).finish p _
  · exact (h.deliver hempty hc p x).finish p _
  · exact h.deliver hempty hc p x
  · exact h.finish p _

theorem step [DecidableEq ι] (h : Sound s) (a : Action ι) : Sound (s.step a) := by
  cases a with
  | key c => exact h.key c
  | read p n =>
    rw [System.step]
    split
    · exact ⟨h.shows, h.delivered, h.ended⟩
    · exact h
  | turn p killed =>
    rw [System.step]
    split
    · exact h
    · exact h.turn p killed _

end Sound

def System.EofRead (s : System ι) (i : ℕ) : Prop :=
  i < s.editor.consumed ∧ s.editor.committed[i]? = some 4

instance (s : System ι) (i : ℕ) : Decidable (s.EofRead i) := inferInstanceAs (Decidable (_ ∧ _))

structure Delivers (s : System ι) : Prop where
  bytes : s.delivered.map Prod.snd = (s.editor.committed.take s.editor.consumed).filter (· ≠ 4)
  consumed_le : s.editor.consumed ≤ s.editor.committed.length
  noEof : ∀ x ∈ s.delivered, x.2 ≠ 4
  ordered : (s.input.w - s.input.r).toNat ≤ (s.input.e - s.input.r).toNat ∧
    (s.input.e - s.input.r).toNat ≤ INPUT_BUF

def EndsOnce (s : System ι) : Prop :=
  ∀ i, s.ended.count i = if s.EofRead i then 1 else 0

theorem Sound.delivers {s : System ι} (h : Sound s) : Delivers s where
  bytes := h.delivered
  consumed_le := h.shows.consumed_le
  noEof x hx := by
    have hmem : x.2 ∈ s.delivered.map Prod.snd := List.mem_map_of_mem hx
    rw [h.delivered] at hmem
    exact of_decide_eq_true (List.mem_filter.mp hmem).2
  ordered := h.shows.ordered

def lineAndEof : List (Action (Fin 1)) :=
  [.key 97, .key 13, .key 4, .read 0 10, .turn 0 false, .turn 0 false, .read 0 10, .turn 0 false]

def abandoned : List (Action (Fin 1)) :=
  [.key 97, .key 4, .read 0 10, .turn 0 false, .turn 0 false, .read 0 10, .turn 0 false]

end Xv6Prng.Console
