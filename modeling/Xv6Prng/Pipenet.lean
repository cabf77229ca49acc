import Xv6Prng.Library.ByteWords
import Xv6Prng.Library.Runs

/-!
# The encrypted pipes of `pipenet.c`

The console process of `pipenet` reads messages from the console, encrypts each and writes
it to the pipe `toe`; the process `e` reads from `toe`, decrypts what it has read and
writes it to the shell. The replies come back over `frome` in the same way. Both processes
hold the same key and counter block, and `encrypt` and `decrypt` combine byte `i` of a call
with byte `i` of one fixed keystream.

A pipe is a FIFO of at most 512 bytes that knows no message boundaries. Every action is one
step of one process, so a run is any interleaving; the console input and the shell are part
of the actions. Bytes on `toe` and `frome` carry as ghosts their plaintext and the index that
they had in the call that encrypted them.
-/

namespace Xv6Prng.Pipenet

open ByteWords Runs

abbrev BUF_SIZE : ℕ := 100
abbrev PIPESIZE : ℕ := 512

structure Pipe (α : Type) where
  data : List α
  bounded : data.length ≤ PIPESIZE

namespace Pipe

variable {α : Type} (p : Pipe α)

def empty : Pipe α := ⟨[], Nat.zero_le _⟩

def readable : Bool := !p.data.isEmpty

def room : ℕ := PIPESIZE - p.data.length

def afterRead (n : ℕ) : Pipe α :=
  ⟨p.data.drop n, by
    have h := p.bounded
    rw [List.length_drop]
    omega⟩

def afterWrite (bytes : List α) : Pipe α :=
  ⟨p.data ++ bytes.take p.room, by
    have h := p.bounded
    rw [List.length_append, List.length_take, room]
    omega⟩

end Pipe

structure Cipher where
  byte : Byte
  position : ℕ
  plain : Byte
  deriving DecidableEq

def encrypt (keystream : ℕ → Byte) (message : List Byte) : List Cipher :=
  message.mapIdx fun i b => ⟨b ^^^ keystream i, i, b⟩

def decrypt (keystream : ℕ → Byte) (ciphertext : List Cipher) : List Byte :=
  ciphertext.mapIdx fun i c => c.byte ^^^ keystream i

/-- The console process: the flags are the descriptors that `select` has set and that have
not been served yet. -/
inductive ConsolePc
  | select
  | ready (console frome : Bool)
  | writeToe (pending : List Cipher) (frome : Bool)

inductive EPc
  | select
  | ready (toe fromsh : Bool)
  | writeTosh (pending : List Byte) (fromsh : Bool)
  | writeFrome (pending : List Cipher)

structure Net where
  console : ConsolePc
  e : EPc
  toe : Pipe Cipher
  frome : Pipe Cipher
  tosh : Pipe Byte
  fromsh : Pipe Byte
  typed : List Byte
  shown : List Byte
  toShell : List Byte
  sent : List Cipher

def Net.initial : Net where
  console := .select
  e := .select
  toe := .empty
  frome := .empty
  tosh := .empty
  fromsh := .empty
  typed := []
  shown := []
  toShell := []
  sent := []

variable (keystream : ℕ → Byte)

/-- The console holds `input`, of which a read takes at most a buffer. -/
def stepConsole (n : Net) (input : List Byte) : Net :=
  match n.console with
  | .select =>
    if input ≠ [] ∨ n.frome.readable then
      { n with console := .ready (!input.isEmpty) n.frome.readable }
    else n
  | .ready true frome =>
    let buf := input.take BUF_SIZE
    { n with console := .writeToe (encrypt keystream buf) frome, typed := n.typed ++ buf }
  | .ready false true =>
    let buf := n.frome.data.take BUF_SIZE
    { n with
      console := .select
      frome := n.frome.afterRead BUF_SIZE
      shown := n.shown ++ decrypt keystream buf }
  | .ready false false => { n with console := .select }
  | .writeToe pending frome =>
    let rest := pending.drop n.toe.room
    { n with
      console := if rest = [] then .ready false frome else .writeToe rest frome
      toe := n.toe.afterWrite pending
      sent := n.sent ++ pending.take n.toe.room }

def stepE (n : Net) : Net :=
  match n.e with
  | .select =>
    if n.toe.readable ∨ n.fromsh.readable then
      { n with e := .ready n.toe.readable n.fromsh.readable }
    else n
  | .ready true fromsh =>
    let buf := n.toe.data.take BUF_SIZE
    { n with e := .writeTosh (decrypt keystream buf) fromsh, toe := n.toe.afterRead BUF_SIZE }
  | .ready false true =>
    let buf := n.fromsh.data.take BUF_SIZE
    { n with e := .writeFrome (encrypt keystream buf), fromsh := n.fromsh.afterRead BUF_SIZE }
  | .ready false false => { n with e := .select }
  | .writeTosh pending fromsh =>
    let rest := pending.drop n.tosh.room
    { n with
      e := if rest = [] then .ready false fromsh else .writeTosh rest fromsh
      tosh := n.tosh.afterWrite pending
      toShell := n.toShell ++ pending.take n.tosh.room }
  | .writeFrome pending =>
    let rest := pending.drop n.frome.room
    { n with
      e := if rest = [] then .select else .writeFrome rest
      frome := n.frome.afterWrite pending
      sent := n.sent ++ pending.take n.frome.room }

inductive Act
  | console (input : List Byte)
  | e
  | shell (reads : ℕ) (writes : List Byte)

def step (n : Net) : Act → Net
  | .console input => stepConsole keystream n input
  | .e => stepE keystream n
  | .shell reads writes =>
    { n with tosh := n.tosh.afterRead reads, fromsh := n.fromsh.afterWrite writes }

def ConsolePc.pending : ConsolePc → List Cipher
  | .writeToe pending _ => pending
  | _ => []

def EPc.toTosh : EPc → List Byte
  | .writeTosh pending _ => pending
  | _ => []

def EPc.toFrome : EPc → List Cipher
  | .writeFrome pending => pending
  | _ => []

theorem pending_rest (rest : List Cipher) (frome : Bool) :
    (if rest = [] then ConsolePc.ready false frome else .writeToe rest frome).pending = rest := by
  split_ifs with h
  · exact h.symm
  · rfl

theorem toTosh_rest (rest : List Byte) (fromsh : Bool) :
    (if rest = [] then EPc.ready false fromsh else .writeTosh rest fromsh).toTosh = rest := by
  split_ifs with h
  · exact h.symm
  · rfl

theorem toFrome_rest (rest : List Cipher) :
    (if rest = [] then EPc.select else .writeFrome rest).toFrome = rest := by
  split_ifs with h
  · exact h.symm
  · rfl

/-- The bytes that the next read of `e` takes from `toe` have the keystream bytes they were
encrypted with at their places in the read. -/
def Aligned (n : Net) : Act → Prop
  | .e => ∀ fromsh, n.e = .ready true fromsh →
      ∀ i c, (n.toe.data.take BUF_SIZE)[i]? = some c → keystream c.position = keystream i
  | _ => True

def Net.Delivers (n : Net) : Prop := n.toShell <+: n.typed

def Cipher.Sound (c : Cipher) : Prop := c.byte = c.plain ^^^ keystream c.position

structure Faithful (n : Net) : Prop where
  toe : ∀ c ∈ n.toe.data, c.Sound keystream
  pending : ∀ c ∈ n.console.pending, c.Sound keystream
  /-- What was read from the console is on its way to the shell, in order. -/
  stream : n.toShell ++ n.e.toTosh ++ n.toe.data.map Cipher.plain ++
    n.console.pending.map Cipher.plain = n.typed

variable {keystream}

theorem sound_of_mem_encrypt {message : List Byte} {c : Cipher}
    (h : c ∈ encrypt keystream message) : c.Sound keystream := by
  obtain ⟨i, hi, rfl⟩ := List.mem_mapIdx.mp h
  rfl

theorem encrypt_plain (message : List Byte) :
    (encrypt keystream message).map Cipher.plain = message := by
  apply List.ext_getElem
  · simp [encrypt]
  · intro i h₁ h₂
    simp [encrypt]

theorem decrypt_eq_plain {ciphertext : List Cipher}
    (hsound : ∀ c ∈ ciphertext, c.Sound keystream)
    (halign : ∀ i c, ciphertext[i]? = some c → keystream c.position = keystream i) :
    decrypt keystream ciphertext = ciphertext.map Cipher.plain := by
  apply List.ext_getElem
  · simp [decrypt]
  · intro i h₁ h₂
    have hi : i < ciphertext.length := by simpa using h₂
    have hc := hsound _ (List.getElem_mem hi)
    have hpos := halign i _ (List.getElem?_eq_getElem hi)
    simp only [decrypt, List.getElem_mapIdx, List.getElem_map]
    rw [hc, hpos, BitVec.xor_assoc, BitVec.xor_self, BitVec.xor_zero]

variable {n : Net}

theorem Faithful.stepConsole (h : Faithful keystream n) (input : List Byte) :
    Faithful keystream (stepConsole keystream n input) := by
  obtain ⟨htoe, hpending, hstream⟩ := h
  rw [Pipenet.stepConsole]
  split
  case h_1 hpc =>
    rw [hpc] at hpending hstream
    split_ifs
    · exact ⟨htoe, hpending, hstream⟩
    · exact ⟨htoe, hpc ▸ hpending, hpc ▸ hstream⟩
  case h_2 frome hpc =>
    refine ⟨htoe, fun c hc => sound_of_mem_encrypt hc, ?_⟩
    rw [hpc] at hstream
    simp only [ConsolePc.pending, encrypt_plain, List.map_nil, List.append_nil] at hstream ⊢
    rw [hstream]
  case h_3 hpc =>
    rw [hpc] at hpending hstream
    exact ⟨htoe, hpending, hstream⟩
  case h_4 hpc =>
    rw [hpc] at hpending hstream
    exact ⟨htoe, hpending, hstream⟩
  case h_5 pending frome hpc =>
    rw [hpc] at hpending hstream
    have hsplit : pending.take n.toe.room ++ pending.drop n.toe.room = pending :=
      List.take_append_drop _ _
    refine ⟨fun c hc => ?_, fun c hc => ?_, ?_⟩
    · rcases List.mem_append.mp hc with hc | hc
      · exact htoe c hc
      · exact hpending c (List.mem_of_mem_take hc)
    · rw [pending_rest] at hc
      exact hpending c (List.mem_of_mem_drop hc)
    · rw [pending_rest]
      simp only [Pipe.afterWrite, List.map_append, List.append_assoc]
      rw [← List.map_append, hsplit]
      simpa only [ConsolePc.pending, List.append_assoc] using hstream

theorem Faithful.stepE (h : Faithful keystream n) (ha : Aligned keystream n .e) :
    Faithful keystream (stepE keystream n) := by
  obtain ⟨htoe, hpending, hstream⟩ := h
  rw [Pipenet.stepE]
  split
  case h_1 hpc =>
    rw [hpc] at hstream
    split_ifs
    · exact ⟨htoe, hpending, hstream⟩
    · exact ⟨htoe, hpending, hpc ▸ hstream⟩
  case h_2 fromsh hpc =>
    rw [hpc] at hstream
    have hdecrypt := decrypt_eq_plain (fun c hc => htoe c (List.mem_of_mem_take hc))
      (ha fromsh hpc)
    refine ⟨fun c hc => htoe c (List.mem_of_mem_drop hc), hpending, ?_⟩
    simp only [EPc.toTosh, Pipe.afterRead, hdecrypt, List.append_nil] at hstream ⊢
    rw [List.append_assoc n.toShell, ← List.map_append, List.take_append_drop, hstream]
  case h_3 hpc =>
    rw [hpc] at hstream
    exact ⟨htoe, hpending, hstream⟩
  case h_4 hpc =>
    rw [hpc] at hstream
    exact ⟨htoe, hpending, hstream⟩
  case h_5 pending fromsh hpc =>
    rw [hpc] at hstream
    refine ⟨htoe, hpending, ?_⟩
    rw [toTosh_rest, List.append_assoc n.toShell, List.take_append_drop]
    exact hstream
  case h_6 pending hpc =>
    rw [hpc] at hstream
    refine ⟨htoe, hpending, ?_⟩
    rw [show (if pending.drop n.frome.room = [] then EPc.select
      else .writeFrome (pending.drop n.frome.room)).toTosh = [] by split_ifs <;> rfl]
    exact hstream

theorem Faithful.step {a : Act} (h : Faithful keystream n) (ha : Aligned keystream n a) :
    Faithful keystream (step keystream n a) := by
  cases a with
  | console input => exact h.stepConsole input
  | e => exact h.stepE ha
  | shell reads writes => exact ⟨h.toe, h.pending, h.stream⟩

theorem Faithful.delivers (h : Faithful keystream n) : n.Delivers := by
  rw [Net.Delivers, ← h.stream, List.append_assoc, List.append_assoc]
  exact List.prefix_append _ _

theorem faithful_initial : Faithful keystream Net.initial :=
  ⟨fun _ hc => absurd hc List.not_mem_nil, fun _ hc => absurd hc List.not_mem_nil, rfl⟩

theorem always_delivers (keystream : ℕ → Byte) (acts : List Act)
    (h : Along (step keystream) (Aligned keystream) Net.initial acts) :
    Always (step keystream) Net.Delivers Net.initial acts :=
  h.always faithful_initial (fun _ _ hn ha => hn.step ha) fun _ hn => hn.delivers

theorem always_delivers_once :
    Always (step fun i => BitVec.ofNat 8 i) Net.Delivers Net.initial
      [.console [65], .console [65], .console [], .e, .e, .e] := by
  refine always_delivers _ _ ⟨trivial, trivial, trivial, ?_, ?_, ?_, trivial⟩
  · intro fromsh hpc
    cases hpc
  · intro fromsh _ i c hc
    cases i with
    | zero =>
      cases hc
      rfl
    | succ i => cases hc
  · intro fromsh hpc
    cases hpc

/-- Two messages of one byte that `e` takes in one read: the second byte is decrypted with
byte 1 of the keystream instead of byte 0. -/
theorem not_delivers_coalesced :
    ¬ Always (step fun i => BitVec.ofNat 8 i) Net.Delivers Net.initial
      [.console [65], .console [65], .console [], .console [], .console [66], .console [66],
        .console [], .e, .e, .e] := by
  intro h
  have hend : [65, 67] <+: [(65 : Byte), 66] := h _ (List.prefix_refl _)
  exact absurd hend (by decide)

def Net.FreshKeystream (n : Net) : Prop := (n.sent.map Cipher.position).Nodup

def Net.Unused (n : Net) : Prop := n.sent = [] ∧ n.console.pending = [] ∧ n.e.toFrome = []

def OnlyMessage (n : Net) : Act → Prop
  | .console input => ∀ frome, n.console = .ready true frome → input ≠ [] → n.Unused
  | .e => n.e = .ready false true → n.fromsh.data ≠ [] → n.Unused
  | .shell _ _ => True

def Net.UsedOnce (n : Net) : Prop :=
  ((n.sent ++ n.console.pending ++ n.e.toFrome).map Cipher.position).Nodup

theorem nodup_encrypt (message : List Byte) :
    ((encrypt keystream message).map Cipher.position).Nodup := by
  have hrange : (encrypt keystream message).map Cipher.position = List.range message.length := by
    apply List.ext_getElem
    · simp [encrypt]
    · intro i h₁ h₂
      simp [encrypt]
  rw [hrange]
  exact List.nodup_range

theorem Net.UsedOnce.stepConsole {input : List Byte} (h : n.UsedOnce)
    (ha : OnlyMessage n (.console input)) : (stepConsole keystream n input).UsedOnce := by
  rw [Net.UsedOnce] at h
  rw [Pipenet.stepConsole]
  split
  case h_1 hpc =>
    rw [hpc] at h
    split_ifs
    · exact h
    · rw [Net.UsedOnce, hpc]
      exact h
  case h_2 frome hpc =>
    by_cases hin : input = []
    · subst hin
      rw [hpc] at h
      exact h
    · obtain ⟨hsent, -, htoFrome⟩ := ha frome hpc hin
      rw [Net.UsedOnce]
      simp only [hsent, htoFrome, ConsolePc.pending, List.nil_append, List.append_nil]
      exact nodup_encrypt _
  case h_3 hpc =>
    rw [hpc] at h
    exact h
  case h_4 hpc =>
    rw [hpc] at h
    exact h
  case h_5 pending frome hpc =>
    rw [hpc] at h
    rw [Net.UsedOnce, pending_rest, List.append_assoc n.sent, List.take_append_drop]
    exact h

theorem Net.UsedOnce.stepE (h : n.UsedOnce) (ha : OnlyMessage n .e) :
    (stepE keystream n).UsedOnce := by
  rw [Net.UsedOnce] at h
  rw [Pipenet.stepE]
  split
  case h_1 hpc =>
    rw [hpc] at h
    split_ifs
    · exact h
    · rw [Net.UsedOnce, hpc]
      exact h
  case h_2 fromsh hpc =>
    rw [hpc] at h
    exact h
  case h_3 hpc =>
    by_cases hdata : n.fromsh.data = []
    · rw [hpc] at h
      rw [Net.UsedOnce, hdata]
      exact h
    · obtain ⟨hsent, hpending, -⟩ := ha hpc hdata
      rw [Net.UsedOnce]
      simp only [hsent, hpending, EPc.toFrome, List.nil_append]
      exact nodup_encrypt _
  case h_4 hpc =>
    rw [hpc] at h
    exact h
  case h_5 pending fromsh hpc =>
    rw [hpc] at h
    rw [Net.UsedOnce, show (if pending.drop n.tosh.room = [] then EPc.ready false fromsh
      else .writeTosh (pending.drop n.tosh.room) fromsh).toFrome = [] by split_ifs <;> rfl]
    exact h
  case h_6 pending hpc =>
    rw [hpc] at h
    -- What is written now overtakes what the console process has still to write.
    have hperm : (n.sent ++ pending.take n.frome.room ++ n.console.pending ++
        pending.drop n.frome.room).Perm (n.sent ++ n.console.pending ++ pending) := by
      conv_rhs => rw [← List.take_append_drop n.frome.room pending]
      simp only [List.append_assoc]
      apply List.Perm.append_left _
      rw [← List.append_assoc, ← List.append_assoc]
      exact List.perm_append_comm.append_right _
    rw [Net.UsedOnce, toFrome_rest]
    exact (hperm.map _).nodup_iff.mpr h

theorem Net.UsedOnce.step {a : Act} (h : n.UsedOnce) (ha : OnlyMessage n a) :
    (step keystream n a).UsedOnce := by
  cases a with
  | console input => exact h.stepConsole ha
  | e => exact h.stepE ha
  | shell reads writes => exact h

theorem Net.UsedOnce.fresh (h : n.UsedOnce) : n.FreshKeystream := by
  rw [Net.UsedOnce, List.append_assoc, List.map_append] at h
  exact h.of_append_left

/-- In every run with at most one message, on whichever pipe. -/
theorem always_freshKeystream (keystream : ℕ → Byte) (acts : List Act)
    (h : Along (step keystream) OnlyMessage Net.initial acts) :
    Always (step keystream) Net.FreshKeystream Net.initial acts :=
  h.always (I := Net.UsedOnce) List.nodup_nil (fun _ _ hn ha => hn.step ha) fun _ hn => hn.fresh

theorem always_freshKeystream_once :
    Always (step fun i => BitVec.ofNat 8 i) Net.FreshKeystream Net.initial
      [.console [65], .console [65], .console []] := by
  refine always_freshKeystream _ _ ⟨?_, ?_, ?_, trivial⟩
  · intro frome hpc
    cases hpc
  · exact fun _ _ _ => ⟨rfl, rfl, rfl⟩
  · intro frome hpc
    cases hpc

/-- Two messages of one byte each use byte 0 of the keystream, so that their ciphertexts
differ as the messages do. -/
theorem not_freshKeystream_two :
    ¬ Always (step fun i => BitVec.ofNat 8 (i + 7)) Net.FreshKeystream Net.initial
        [.console [65], .console [65], .console [], .console [], .console [66], .console [66],
          .console []] ∧
      ∃ c d : Cipher, (run (step fun i => BitVec.ofNat 8 (i + 7)) Net.initial
        [.console [65], .console [65], .console [], .console [], .console [66], .console [66],
          .console []]).sent = [c, d] ∧ c.byte ^^^ d.byte = c.plain ^^^ d.plain := by
  constructor
  · intro h
    have hend : [0, 0].Nodup := h _ (List.prefix_refl _)
    exact absurd hend (by decide)
  · exact ⟨⟨70, 0, 65⟩, ⟨69, 0, 66⟩, rfl, by decide⟩

end Xv6Prng.Pipenet
