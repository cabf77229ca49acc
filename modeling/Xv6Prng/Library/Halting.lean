import Mathlib

/-!
# Computations that return or halt

A computation takes a state and either returns a value with a new state or
stops for a stated reason, keeping the state it stopped in. `Returns` is total
correctness from one start state; there is no partial version, so a postcondition
is never met by a computation that stops. `Stops` is its counterpart.

`forLoop` is the counted loop `for (i = start; i < start + n; i++)` with the
loop-carried locals as an accumulator, `forBreak` the same loop with a `break`.
-/

namespace Xv6Prng.Halting

variable {ε σ α β γ : Type}

def Returns (x : EStateM ε σ α) (s : σ) (Q : α → σ → Prop) : Prop :=
  ∃ a s', x.run s = .ok a s' ∧ Q a s'

/-- The computation stops without returning, for a reason and in a state that satisfy `E`. -/
def Stops (x : EStateM ε σ α) (s : σ) (E : ε → σ → Prop) : Prop :=
  ∃ e s', x.run s = .error e s' ∧ E e s'

variable {x : EStateM ε σ α} {a : α} {f : α → EStateM ε σ β} {s s' : σ} {e : ε} {b : β}
  {P Q : α → σ → Prop} {E F : ε → σ → Prop} {n start : ℕ} {body : ℕ → β → EStateM ε σ β}

theorem bind_ok (h : x.run s = .ok a s') : (x >>= f).run s = (f a).run s' := by
  rw [EStateM.run_bind, h]

theorem bind_error (h : x.run s = .error e s') : (x >>= f).run s = .error e s' := by
  rw [EStateM.run_bind, h]

theorem get_bind (f : σ → EStateM ε σ β) (s : σ) : (get >>= f).run s = (f s).run s := by
  rw [EStateM.run_bind, EStateM.run_get]

theorem modify_bind (g : σ → σ) (f : PUnit → EStateM ε σ β) (s : σ) :
    (modify g >>= f).run s = (f ⟨⟩).run (g s) := by
  rw [EStateM.run_bind, EStateM.run_modify]

theorem bind_eq_ok {s'' : σ} (h : (x >>= f).run s = .ok b s'') :
    ∃ a s', x.run s = .ok a s' ∧ (f a).run s' = .ok b s'' := by
  cases hx : x.run s with
  | ok a s' => exact ⟨a, s', rfl, by rwa [bind_ok hx] at h⟩
  | error e s' => rw [bind_error hx] at h; cases h

theorem returns_of_eq (h : x.run s = .ok a s') (hQ : Q a s') : Returns x s Q := ⟨a, s', h, hQ⟩

theorem Returns.bind {Q : β → σ → Prop} (hx : Returns x s P)
    (hf : ∀ a s', P a s' → Returns (f a) s' Q) : Returns (x >>= f) s Q := by
  obtain ⟨a, s', hs, hP⟩ := hx
  obtain ⟨b, s'', ht, hQ⟩ := hf a s' hP
  exact ⟨b, s'', by rw [bind_ok hs, ht], hQ⟩

theorem returns_get_bind {f : σ → EStateM ε σ β} {Q : β → σ → Prop} (h : Returns (f s) s Q) :
    Returns (get >>= f) s Q := by
  unfold Returns
  rwa [get_bind]

theorem returns_modify_bind {g : σ → σ} {f : PUnit → EStateM ε σ β} {Q : β → σ → Prop}
    (h : Returns (f ⟨⟩) (g s) Q) : Returns (modify g >>= f) s Q := by
  unfold Returns
  rwa [modify_bind]

theorem returns_pure (h : Q a s) : Returns (pure a : EStateM ε σ α) s Q := ⟨a, s, rfl, h⟩

theorem Returns.bind_of_eq {Q : β → σ → Prop} (hx : x.run s = .ok a s') (hf : Returns (f a) s' Q) :
    Returns (x >>= f) s Q := by
  unfold Returns
  rwa [bind_ok hx]

theorem Returns.mono (hx : Returns x s P) (h : ∀ a s', P a s' → Q a s') : Returns x s Q := by
  obtain ⟨a, s', hs, hP⟩ := hx
  exact ⟨a, s', hs, h a s' hP⟩

theorem Returns.stops_bind (hx : Returns x s P)
    (hf : ∀ a s', P a s' → Stops (f a) s' E) : Stops (x >>= f) s E := by
  obtain ⟨a, s', hs, hP⟩ := hx
  obtain ⟨e, s'', ht, hE⟩ := hf a s' hP
  exact ⟨e, s'', by rw [bind_ok hs, ht], hE⟩

theorem Stops.bind_of_eq (hx : x.run s = .ok a s') (hf : Stops (f a) s' E) :
    Stops (x >>= f) s E := by
  unfold Stops
  rwa [bind_ok hx]

theorem stops_get_bind {f : σ → EStateM ε σ β} (h : Stops (f s) s E) :
    Stops (get >>= f) s E := by
  unfold Stops
  rwa [get_bind]

theorem stops_throw (h : E e s) : Stops (throw e : EStateM ε σ α) s E := ⟨e, s, rfl, h⟩

theorem Stops.bind (hx : Stops x s E) : Stops (x >>= f) s E := by
  obtain ⟨e, s', hs, hE⟩ := hx
  exact ⟨e, s', bind_error hs, hE⟩

theorem Stops.mono (hx : Stops x s E) (h : ∀ e s', E e s' → F e s') :
    Stops x s F := by
  obtain ⟨e, s', hs, hE⟩ := hx
  exact ⟨e, s', hs, h e s' hE⟩

theorem Stops.not_returns (hx : Stops x s E) : ¬ Returns x s Q := by
  rintro ⟨a, s', hs, -⟩
  obtain ⟨e, s'', ht, -⟩ := hx
  rw [hs] at ht
  cases ht

def stopsWith [DecidableEq ε] (x : EStateM ε σ α) (s : σ) (e : ε) : Bool :=
  match x.run s with
  | .ok _ _ => false
  | .error e' _ => decide (e' = e)

theorem stops_of_stopsWith [DecidableEq ε] (h : stopsWith x s e = true) :
    Stops x s fun e' _ => e' = e := by
  rw [stopsWith] at h
  split at h
  · cases h
  next e' s' hrun => exact ⟨e', s', hrun, of_decide_eq_true h⟩

def returnsWith (x : EStateM ε σ α) (s : σ) (p : α → σ → Bool) : Bool :=
  match x.run s with
  | .ok a s' => p a s'
  | .error _ _ => false

theorem returns_of_returnsWith {p : α → σ → Bool} (h : returnsWith x s p = true) :
    Returns x s fun a s' => p a s' = true := by
  rw [returnsWith] at h
  split at h
  next a s' hrun => exact ⟨a, s', hrun, h⟩
  · cases h

def Ends (x : EStateM ε σ α) (s : σ) (P : α → σ → Prop) (E : ε → σ → Prop) : Prop :=
  match x.run s with
  | .ok a s' => P a s'
  | .error e s' => E e s'

theorem ends_of_ok (h : x.run s = .ok a s') (hP : P a s') : Ends x s P E := by
  rw [Ends, h]
  exact hP

theorem ends_of_error (h : x.run s = .error e s') (hE : E e s') :
    Ends x s P E := by
  rw [Ends, h]
  exact hE

theorem Ends.bind {Q : β → σ → Prop} (hx : Ends x s P E)
    (hf : ∀ a s', P a s' → Ends (f a) s' Q E) : Ends (x >>= f) s Q E := by
  cases h : x.run s with
  | ok a s' =>
    rw [Ends, h] at hx
    rw [Ends, bind_ok h]
    exact hf a s' hx
  | error e s' =>
    rw [Ends, h] at hx
    exact ends_of_error (bind_error h) hx

theorem Ends.bind_of_eq {Q : β → σ → Prop} (hx : x.run s = .ok a s')
    (hf : Ends (f a) s' Q E) : Ends (x >>= f) s Q E := by
  rwa [Ends, bind_ok hx]

theorem ends_pure (h : P a s) : Ends (pure a : EStateM ε σ α) s P E := h

theorem ends_throw (h : E e s) : Ends (throw e : EStateM ε σ α) s P E := h

theorem ends_get_bind {f : σ → EStateM ε σ β} {Q : β → σ → Prop}
    (h : Ends (f s) s Q E) : Ends (get >>= f) s Q E := by
  rwa [Ends, get_bind]

theorem ends_modify_bind {g : σ → σ} {f : PUnit → EStateM ε σ β} {Q : β → σ → Prop}
    (h : Ends (f ⟨⟩) (g s) Q E) : Ends (modify g >>= f) s Q E := by
  rwa [Ends, modify_bind]

theorem Ends.mono (hx : Ends x s P E) (hP : ∀ a s', P a s' → Q a s')
    (hE : ∀ e s', E e s' → F e s') : Ends x s Q F := by
  unfold Ends at hx ⊢
  split at hx
  · exact hP _ _ hx
  · exact hE _ _ hx

theorem Ends.bind_imp {Q : β → σ → Prop} (hx : Ends x s P E)
    (hE : ∀ e s', E e s' → F e s') (hf : ∀ a s', P a s' → Ends (f a) s' Q F) :
    Ends (x >>= f) s Q F :=
  (hx.mono (fun _ _ hP => hP) hE).bind hf

theorem Returns.ends (hx : Returns x s P) : Ends x s P E := by
  obtain ⟨a, s', hs, hP⟩ := hx
  exact ends_of_ok hs hP

theorem Stops.ends (hx : Stops x s E) : Ends x s P E := by
  obtain ⟨e, s', hs, hE⟩ := hx
  exact ends_of_error hs hE

theorem Ends.of_stops (hx : Ends x s P E) (hs : Stops x s F) :
    ∃ e s', F e s' ∧ E e s' := by
  obtain ⟨e, s', hr, hF⟩ := hs
  rw [Ends, hr] at hx
  exact ⟨e, s', hF, hx⟩

theorem Ends.of_ok (hx : Ends x s P E) (h : x.run s = .ok a s') : P a s' := by
  rwa [Ends, h] at hx

theorem Returns.and_ends {P Q : α → σ → Prop} (hx : Returns x s P) (he : Ends x s Q E) :
    Returns x s fun a s' => P a s' ∧ Q a s' := by
  obtain ⟨a, s', hrun, hP⟩ := hx
  exact ⟨a, s', hrun, hP, he.of_ok hrun⟩

theorem Ends.returns (hx : Ends x s P E) (hE : ∀ e s', ¬ E e s') :
    Returns x s P := by
  cases h : x.run s with
  | ok a s' => exact ⟨a, s', h, hx.of_ok h⟩
  | error e s' =>
    rw [Ends, h] at hx
    exact absurd hx (hE e s')

/-- The computation keeps `I`, and where it halts it does so for a reason in `E`. -/
def Keeps (I : σ → Prop) (E : ε → Prop) (x : EStateM ε σ α) : Prop :=
  ∀ s, I s → Ends x s (fun _ => I) (fun e s' => E e ∧ I s')

section Keeps

variable {I : σ → Prop} {E : ε → Prop}

theorem Keeps.ends (h : Keeps I E x) (hs : I s) : Ends x s (fun _ => I) (fun _ => I) :=
  (h s hs).mono (fun _ _ h => h) fun _ _ h => h.2

theorem keeps_pure (a : α) : Keeps I E (pure a : EStateM ε σ α) := fun _ hs => hs

theorem keeps_throw (he : E e) : Keeps I E (throw e : EStateM ε σ α) :=
  fun _ hs => ⟨he, hs⟩

theorem keeps_get : Keeps I E (get : EStateM ε σ σ) := fun _ hs => hs

theorem keeps_modify {g : σ → σ} (hg : ∀ s, I s → I (g s)) :
    Keeps I E (modify g : EStateM ε σ PUnit) := fun s hs => hg s hs

theorem Keeps.bind (hx : Keeps I E x) (hf : ∀ a, Keeps I E (f a)) : Keeps I E (x >>= f) :=
  fun s hs => (hx s hs).bind fun a s' hs' => hf a s' hs'

theorem keeps_get_bind {f : σ → EStateM ε σ β}
    (hf : ∀ s, I s → Ends (f s) s (fun _ => I) (fun e s' => E e ∧ I s')) :
    Keeps I E (get >>= f) :=
  fun s hs => ends_get_bind (hf s hs)

theorem Keeps.ite {p : Prop} [Decidable p] {y : EStateM ε σ α} (hx : Keeps I E x)
    (hy : Keeps I E y) :
    Keeps I E (if p then x else y) := by
  split
  · exact hx
  · exact hy

end Keeps

def forLoop (body : ℕ → β → EStateM ε σ β) : ℕ → ℕ → β → EStateM ε σ β
  | _, 0, b => pure b
  | i, n + 1, b => body i b >>= forLoop body (i + 1) n

theorem forLoop_returns (I : ℕ → β → σ → Prop) (h0 : I start b s)
    (step : ∀ i b s, start ≤ i → i < start + n → I i b s → Returns (body i b) s (I (i + 1))) :
    Returns (forLoop body start n b) s (I (start + n)) := by
  induction n generalizing start b s with
  | zero => exact ⟨b, s, rfl, h0⟩
  | succ n ih =>
    refine (step start b s le_rfl (by omega) h0).bind fun b' s' hb => ?_
    have hrest := ih hb fun i c t hi hn => step i c t (by omega) (by omega)
    rwa [show start + 1 + n = start + (n + 1) by omega] at hrest

theorem forLoop_stops (I : ℕ → β → σ → Prop) {k : ℕ} (h0 : I start b s)
    (hk : k < n)
    (step : ∀ i b s, start ≤ i → i < start + k → I i b s → Returns (body i b) s (I (i + 1)))
    (stop : ∀ b s, I (start + k) b s → Stops (body (start + k) b) s E) :
    Stops (forLoop body start n b) s E := by
  induction k generalizing start n b s with
  | zero =>
    obtain ⟨n, rfl⟩ : ∃ m, n = m + 1 := ⟨n - 1, by omega⟩
    exact Stops.bind (stop b s h0)
  | succ k ih =>
    obtain ⟨n, rfl⟩ : ∃ m, n = m + 1 := ⟨n - 1, by omega⟩
    refine (step start b s le_rfl (by omega) h0).stops_bind fun b' s' hb => ?_
    refine ih hb (by omega) (fun i c t hi hn => step i c t (by omega) (by omega)) ?_
    rwa [show start + 1 + k = start + (k + 1) by omega]

theorem Keeps.forLoop {I : σ → Prop} {E : ε → Prop} (hb : ∀ i b, Keeps I E (body i b)) (start n : ℕ)
    (b : β) : Keeps I E (forLoop body start n b) := by
  induction n generalizing start b with
  | zero => exact keeps_pure b
  | succ n ih => exact (hb start b).bind fun c => ih (start + 1) c

theorem forLoop_ends (I : ℕ → β → σ → Prop) (h0 : I start b s)
    (step : ∀ i b s, start ≤ i → i < start + n → I i b s → Ends (body i b) s (I (i + 1)) E) :
    Ends (forLoop body start n b) s (I (start + n)) E := by
  induction n generalizing start b s with
  | zero => exact h0
  | succ n ih =>
    refine (step start b s le_rfl (by omega) h0).bind fun b' s' hb => ?_
    have hrest := ih hb fun i c t hi hn => step i c t (by omega) (by omega)
    rwa [show start + 1 + n = start + (n + 1) by omega] at hrest

def forBreak (body : ℕ → β → EStateM ε σ (ForInStep β)) : ℕ → ℕ → β → EStateM ε σ β
  | _, 0, b => pure b
  | i, n + 1, b => body i b >>= fun r => match r with
    | .done b' => pure b'
    | .yield b' => forBreak body (i + 1) n b'

variable {body : ℕ → β → EStateM ε σ (ForInStep β)}

theorem forBreak_done {i : ℕ} {b' : β}
    (h : (body i b).run s = .ok (.done b') s') : (forBreak body i (n + 1) b).run s = .ok b' s' := by
  rw [forBreak, bind_ok h]
  rfl

theorem forBreak_yield {i : ℕ} {b' : β} (h : (body i b).run s = .ok (.yield b') s') :
    (forBreak body i (n + 1) b).run s = (forBreak body (i + 1) n b').run s' := by
  rw [forBreak, bind_ok h]

theorem forBreak_error {i : ℕ}
    (h : (body i b).run s = .error e s') : (forBreak body i (n + 1) b).run s = .error e s' := by
  rw [forBreak, bind_error h]

def AfterTurn (Q I : β → σ → Prop) : ForInStep β → σ → Prop
  | .done b, s => Q b s
  | .yield b, s => I b s

theorem forBreak_ends (I : ℕ → β → σ → Prop) {Q : β → σ → Prop} (h0 : I start b s)
    (step : ∀ i b s, start ≤ i → i < start + n → I i b s →
      Ends (body i b) s (AfterTurn Q (I (i + 1))) E) (hend : ∀ b s, I (start + n) b s → Q b s) :
    Ends (forBreak body start n b) s Q E := by
  induction n generalizing start b s with
  | zero => exact hend b s h0
  | succ n ih =>
    refine (step start b s le_rfl (by omega) h0).bind fun r s' hr => ?_
    cases r with
    | done b' => exact hr
    | yield b' =>
      refine ih hr (fun i c t hi hn => step i c t (by omega) (by omega)) ?_
      rwa [show start + 1 + n = start + (n + 1) by omega]

theorem Keeps.forBreak {I : σ → Prop} {E : ε → Prop}
    (hb : ∀ i b, Keeps I E (body i b)) (start n : ℕ) (b : β) :
    Keeps I E (forBreak body start n b) := by
  induction n generalizing start b with
  | zero => exact keeps_pure b
  | succ n ih =>
    refine (hb start b).bind fun r => ?_
    cases r with
    | done c => exact keeps_pure c
    | yield c => exact ih (start + 1) c

end Xv6Prng.Halting
