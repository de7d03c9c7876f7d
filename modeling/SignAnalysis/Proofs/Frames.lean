/-
The code that remains, laid out in frames.

Code that is put in front of what remains need not be copied: a stack of cursors into pieces of code
does as well, with a new cursor for the new code.  The same instructions can then be laid out in
many ways, and the layout makes no difference:

* `Continuation` — a stack of cursors, and `Continuation.instructions`, the code it stands for;
* `Continuation.ActsAs` — it answers as this code does;
* `Framed.step` — the step of a configuration with such a stack;
* `Framed.step_plain` — it is the step of the configuration with plain code;
* `Framed.frames_play_no_part` — hence configurations with the same code, whatever its layout,
  step alike, now and along all runs.
-/
import Mathlib.Data.List.Forall2
import SignAnalysis.Proofs.Runs

namespace SignAnalysis

/-! ### Continuations -/

/-- A cursor into a piece of code. -/
structure Frame where
  code : Code
  position : Nat
deriving DecidableEq

/-- The instructions from the cursor on. -/
def Frame.remaining (f : Frame) : Code := f.code.drop f.position

/-- The instructions that remain, as a stack of frames with the top one first. -/
structure Continuation where
  frames : List Frame
deriving DecidableEq

namespace Continuation

def empty : Continuation := ⟨[]⟩

/-- Puts code in front, in a frame of its own unless there is none of it. -/
def splice (k : Continuation) (code : Code) : Continuation :=
  if code.isEmpty then k else ⟨⟨code, 0⟩ :: k.frames⟩

/-- All of a piece of code remains. -/
def new (code : Code) : Continuation := empty.splice code

/-- Moves the top cursor on, and drops its frame if that is exhausted. -/
def advance (k : Continuation) : Continuation :=
  match k.frames with
  | [] => k
  | f :: rest =>
    if f.code.length ≤ f.position + 1 then ⟨rest⟩
    else ⟨{ f with position := f.position + 1 } :: rest⟩

def isEmpty (k : Continuation) : Bool := k.frames.isEmpty

/-- The number of instructions that remain, added up over the frames. -/
def length (k : Continuation) : Nat := k.frames.foldr (fun f n => f.remaining.length + n) 0

/-- The instruction under the top cursor. -/
def head? (k : Continuation) : Option Instruction :=
  k.frames.head?.bind fun f => f.code[f.position]?

/-- The instructions that remain, frame by frame from the top. -/
def instructions (k : Continuation) : Code := k.frames.flatMap Frame.remaining

/-- Continuations are compared by their instructions, not by their frames. -/
instance : BEq Continuation where
  beq k l := k.length == l.length && k.instructions == l.instructions

/-- The continuations that can be made. -/
inductive Built : Continuation → Prop
  | empty : Built empty
  | new (code : Code) : Built (new code)
  | splice {k : Continuation} (h : Built k) (code : Code) : Built (k.splice code)
  | advance {k : Continuation} (h : Built k) : Built k.advance

/-- No frame is exhausted. -/
def Intact (k : Continuation) : Prop := ∀ f ∈ k.frames, f.position < f.code.length

/-- The continuation answers as the code `l` that remains does. -/
structure ActsAs (k : Continuation) (l : Code) : Prop where
  intact : k.Intact
  instructions : k.instructions = l
  isEmpty : k.isEmpty = true ↔ l = []
  length : k.length = l.length
  head? : k.head? = l.head?
  splice : ∀ code, (k.splice code).instructions = Code.splice code l
  advance : k.advance.instructions = Code.advance l

variable {k l : Continuation}

theorem length_eq (k : Continuation) : k.length = k.instructions.length := by
  rw [length, instructions]
  induction k.frames with
  | nil => rfl
  | cons f rest ih => rw [List.foldr_cons, ih, List.flatMap_cons, List.length_append]

theorem beq_iff : (k == l) = true ↔ k.instructions = l.instructions := by
  show (k.length == l.length && k.instructions == l.instructions) = true ↔ _
  rw [Bool.and_eq_true, beq_iff_eq, beq_iff_eq, length_eq, length_eq]
  constructor
  · exact And.right
  · intro h
    exact ⟨congrArg List.length h, h⟩

theorem instructions_splice (k : Continuation) (code : Code) :
    (k.splice code).instructions = code ++ k.instructions := by
  cases code with
  | nil => rfl
  | cons i code => simp [splice, instructions, Frame.remaining]

theorem Intact.splice (h : k.Intact) (code : Code) : (k.splice code).Intact := by
  cases code with
  | nil => exact h
  | cons i code => exact List.forall_mem_cons.mpr ⟨Nat.succ_pos _, h⟩

theorem advance_cons (f : Frame) (rest : List Frame) :
    advance ⟨f :: rest⟩ =
      if f.code.length ≤ f.position + 1 then ⟨rest⟩
      else ⟨{ f with position := f.position + 1 } :: rest⟩ :=
  rfl

theorem Intact.advance (h : k.Intact) : k.advance.Intact := by
  obtain ⟨_ | ⟨f, rest⟩⟩ := k
  · exact h
  · obtain ⟨-, hrest⟩ := List.forall_mem_cons.mp h
    rw [advance_cons]
    split
    · exact hrest
    · rename_i hlt
      exact List.forall_mem_cons.mpr ⟨Nat.lt_of_not_le hlt, hrest⟩

/-- No frame of a continuation is exhausted, whichever way it was made. -/
theorem Built.intact (h : k.Built) : k.Intact := by
  have hempty : Continuation.empty.Intact := fun f hf => absurd hf List.not_mem_nil
  induction h with
  | empty => exact hempty
  | new code => exact hempty.splice code
  | splice _ code ih => exact ih.splice code
  | advance _ ih => exact ih.advance

/-- A continuation without an exhausted frame is empty, or its top cursor is at an instruction. -/
theorem Intact.cases (h : k.Intact) :
    k = ⟨[]⟩ ∨ ∃ f rest i, k = ⟨f :: rest⟩ ∧ f.code[f.position]? = some i ∧
      f.remaining = i :: f.code.drop (f.position + 1) := by
  obtain ⟨_ | ⟨f, rest⟩⟩ := k
  · exact .inl rfl
  · have hlt : f.position < f.code.length := h f (List.mem_cons_self ..)
    exact .inr ⟨f, rest, f.code[f.position], rfl, List.getElem?_eq_getElem hlt,
      List.drop_eq_getElem_cons hlt⟩

theorem Intact.isEmpty_iff (h : k.Intact) : k.isEmpty = true ↔ k.instructions = [] := by
  rcases h.cases with rfl | ⟨f, rest, i, rfl, -, hremaining⟩
  · exact ⟨fun _ => rfl, fun _ => rfl⟩
  · simp [isEmpty, instructions, hremaining]

theorem Intact.head?_eq (h : k.Intact) : k.head? = k.instructions.head? := by
  rcases h.cases with rfl | ⟨f, rest, i, rfl, hi, hremaining⟩
  · rfl
  · simp [head?, instructions, hi, hremaining]

theorem instructions_cons (f : Frame) (rest : List Frame) :
    instructions ⟨f :: rest⟩ = f.remaining ++ instructions ⟨rest⟩ :=
  List.flatMap_cons

theorem Intact.instructions_advance (h : k.Intact) :
    k.advance.instructions = k.instructions.tail := by
  rcases h.cases with rfl | ⟨f, rest, i, rfl, -, hremaining⟩
  · rfl
  · rw [advance_cons, instructions_cons, hremaining]
    split
    · -- the frame had one instruction left, so the one below is uncovered
      rename_i hle
      rw [List.drop_eq_nil_of_le hle]
      rfl
    · exact instructions_cons _ rest

theorem Intact.actsAs (h : k.Intact) : k.ActsAs k.instructions where
  intact := h
  instructions := rfl
  isEmpty := h.isEmpty_iff
  length := k.length_eq
  head? := h.head?_eq
  splice := k.instructions_splice
  advance := h.instructions_advance

end Continuation

/-! ### Steps -/

/-- A configuration whose remaining code is laid out in frames. -/
structure Framed where
  store : Store
  stack : List Operand
  continuation : Continuation
  exceptional : Bool
  tryDepth : Nat
  exceptionDepth : Nat

namespace Framed

/-- Configurations are compared field by field. -/
instance : BEq Framed where
  beq c d := c.store == d.store && c.stack == d.stack && c.continuation == d.continuation &&
    c.exceptional == d.exceptional && c.tryDepth == d.tryDepth &&
    c.exceptionDepth == d.exceptionDepth

/-- The configuration with plain code. -/
def plain (c : Framed) : Configuration :=
  ⟨c.store, c.stack, c.continuation.instructions, c.exceptional, c.tryDepth, c.exceptionDepth⟩

/-- Everything but the code that remains. -/
def data (c : Framed) : Configuration :=
  ⟨c.store, c.stack, [], c.exceptional, c.tryDepth, c.exceptionDepth⟩

/-- Replaces everything but the code that remains. -/
def withData (c : Framed) (d : Configuration) : Framed :=
  ⟨d.store, d.stack, c.continuation, d.exceptional, d.tryDepth, d.exceptionDepth⟩

def splice (c : Framed) (code : Code) : Framed :=
  { c with continuation := c.continuation.splice code }

def raise (c : Framed) : Framed := c.withData c.data.raise

/-- The ways to go on after a guard. -/
def enterArms (c : Framed) (g : Truth) (yes no : Code) : List Framed :=
  (if g = .error then [c.raise] else []) ++
  (if g.mayHold then [c.splice yes] else []) ++
  (if g.mayFail then [c.splice no] else [])

/-- Leaves a try block, through the handler if that is for the pending exception. -/
def leaveTry (c : Framed) (handler : Code) : Framed :=
  if c.exceptional ∧ c.exceptionDepth = c.tryDepth then
    { c.splice handler with exceptional := false, exceptionDepth := 0, tryDepth := c.tryDepth - 1 }
  else { c with tryDepth := c.tryDepth - 1 }

/-- Executes an instruction that the cursor has passed.  What a loop or a try block leaves behind
its guard or its body gets a frame of its own. -/
def execute (c : Framed) (i : Instruction) : Except Fault (List Framed) :=
  match i with
  | .basic _ op => (c.data.perform i op).map (List.map c.withData)
  | .branch _ yes no => do
    let (g, d) ← c.data.popBool i
    .ok ((c.withData d).enterArms g yes no)
  | .loop p guard body =>
    .ok [(c.splice [.branch p (body ++ [i]) [.basic p .noop]]).splice guard]
  | .attempt p body handler =>
    let dispatch := .dispatch ((handler.head?.map (·.point)).getD p) handler
    .ok [{ (c.splice [dispatch]).splice body with tryDepth := c.tryDepth + 1 }]
  | .dispatch _ handler =>
    if c.tryDepth = 0 then .error (.strayDispatch i) else .ok [c.leaveTry handler]

/-- The configurations that may come of executing the instruction under the cursor. -/
def step (c : Framed) : Except Fault (List Framed) :=
  match c.continuation.head? with
  | none => .error .nothingRemains
  | some i => { c with continuation := c.continuation.advance }.execute i

/-- `d` may come of a step from `c`. -/
def Steps (c d : Framed) : Prop := ∃ ds, c.step = .ok ds ∧ d ∈ ds

/-- `d` may come of exactly `n` steps from `c`. -/
def ReachesIn : Nat → Framed → Framed → Prop
  | 0, c, d => c = d
  | n + 1, c, d => ∃ c', c.Steps c' ∧ ReachesIn n c' d

/-- The same fault, or as many configurations, each equal to the one in its place. -/
inductive Alike : Except Fault (List Framed) → Except Fault (List Framed) → Prop
  | error (f : Fault) : Alike (.error f) (.error f)
  | ok {cs ds : List Framed} (h : cs.Forall₂ (fun c d => (c == d) = true) ds) :
      Alike (.ok cs) (.ok ds)

variable {c d : Framed}

theorem beq_iff : (c == d) = true ↔ c.plain = d.plain := by
  show (_ && _ && _ && _ && _ && _) = true ↔ _
  simp only [Bool.and_eq_true, beq_iff_eq, Continuation.beq_iff, plain, Configuration.mk.injEq]
  tauto

end Framed

/-! ### The step on plain code -/

namespace Configuration

/-- Replaces the code that remains. -/
def withCode (c : Configuration) (code : Code) : Configuration := { c with code }

theorem raise_withCode (c : Configuration) (code : Code) :
    (c.withCode code).raise = c.raise.withCode code := by
  obtain ⟨σ, st, rest, x, t, e⟩ := c
  cases x <;> rfl

theorem storeValue_withCode (c : Configuration) (code : Code) (y : Var) (m : Sign) :
    (c.withCode code).storeValue y m = (c.storeValue y m).withCode code := by
  unfold storeValue
  by_cases hm : m = .error
  · rw [if_pos hm, if_pos hm]
    exact raise_withCode (c.declare y) code
  · rw [if_neg hm, if_neg hm]
    obtain ⟨σ, st, rest, x, t, e⟩ := c
    cases x <;> rfl

theorem fork_withCode (c : Configuration) (code : Code) (os : List Operand) :
    (c.withCode code).fork os = (c.fork os).map (·.withCode code) := by
  unfold fork
  rw [List.map_map]
  rfl

/-- An operation neither looks at the code that remains nor changes it. -/
theorem perform_withCode (c : Configuration) (code : Code) (i : Instruction) (op : Operation) :
    (c.withCode code).perform i op = (c.perform i op).map (List.map (·.withCode code)) := by
  obtain ⟨σ, st, rest, x, t, e⟩ := c
  -- by the operands that are there: too few, of the wrong sort, or as needed
  cases op with
  | push | truth | fetch | noop => rfl
  | store y =>
    rcases st with _ | ⟨m | _, st⟩
    case cons.int =>
      exact congrArg (fun d => Except.ok [d]) (storeValue_withCode ⟨σ, st, rest, x, t, e⟩ code y m)
    all_goals rfl
  | negate => rcases st with _ | ⟨_ | _, st⟩ <;> rfl
  | conj => rcases st with _ | ⟨_ | _, _ | ⟨_ | _, st⟩⟩ <;> rfl
  | arith op =>
    rcases st with _ | ⟨l | _, _ | ⟨r | _, st⟩⟩
    case cons.int.cons.int =>
      exact congrArg Except.ok (fork_withCode ⟨σ, st, rest, x, t, e⟩ code _)
    all_goals rfl
  | compare op =>
    rcases st with _ | ⟨l | _, _ | ⟨r | _, st⟩⟩
    case cons.int.cons.int =>
      exact congrArg Except.ok (fork_withCode ⟨σ, st, rest, x, t, e⟩ code _)
    all_goals rfl

end Configuration

namespace Framed

variable {c d : Framed}

theorem plain_splice (c : Framed) (code : Code) : (c.splice code).plain = c.plain.splice code := by
  simp only [plain, splice, Continuation.instructions_splice]
  rfl

theorem plain_raise (c : Framed) : c.raise.plain = c.plain.raise :=
  (Configuration.raise_withCode c.data c.continuation.instructions).symm

theorem plain_enterArms (c : Framed) (g : Truth) (yes no : Code) :
    (c.enterArms g yes no).map plain = c.plain.enterArms g yes no := by
  unfold enterArms Configuration.enterArms
  cases g <;> simp [Truth.mayHold, Truth.mayFail, plain_splice, plain_raise]

theorem plain_leaveTry (c : Framed) (handler : Code) :
    (c.leaveTry handler).plain = c.plain.leaveTry handler := by
  obtain ⟨σ, st, k, x, t, e⟩ := c
  by_cases hc : x = true ∧ e = t
  · simp [leaveTry, Configuration.leaveTry, plain, splice, Continuation.instructions_splice,
      Configuration.splice, Code.splice, hc]
  · simp [leaveTry, Configuration.leaveTry, plain, hc]

/-- Executing an instruction is the same on plain code. -/
theorem execute_plain (c : Framed) (i : Instruction) :
    (c.execute i).map (List.map plain) = c.plain.execute i := by
  cases i with
  | basic p op =>
    show _ = (c.data.withCode c.continuation.instructions).perform _ op
    rw [Configuration.perform_withCode, execute]
    cases c.data.perform (.basic p op) op with
    | error f => rfl
    | ok ds => exact congrArg Except.ok (List.map_map (f := c.withData) (g := plain) (l := ds))
  | branch p yes no =>
    obtain ⟨σ, st, k, x, t, e⟩ := c
    rcases st with _ | ⟨m | g, st⟩
    · rfl
    · rfl
    · exact congrArg Except.ok (plain_enterArms ⟨σ, st, k, x, t, e⟩ g yes no)
  | loop p guard body =>
    refine congrArg (fun d => Except.ok [d]) ?_
    rw [plain_splice, plain_splice]
    simp [Configuration.splice, Code.splice]
  | attempt p body handler =>
    refine congrArg (fun d => Except.ok [d]) ?_
    simp [plain, splice, Continuation.instructions_splice, Configuration.splice, Code.splice]
  | dispatch p handler =>
    by_cases ht : c.tryDepth = 0
    · have ht' : c.plain.tryDepth = 0 := ht
      rw [execute, Configuration.execute, if_pos ht, if_pos ht']
      rfl
    · have ht' : c.plain.tryDepth ≠ 0 := ht
      rw [execute, Configuration.execute, if_neg ht, if_neg ht', ← plain_leaveTry]
      rfl

/-- A step is the step of the configuration with plain code. -/
theorem step_plain (h : c.continuation.Intact) : c.step.map (List.map plain) = c.plain.step := by
  have hhead := h.head?_eq
  have hadvance := h.instructions_advance
  cases hcode : c.continuation.instructions with
  | nil =>
    rw [hcode] at hhead
    rw [step, hhead, Configuration.step, show c.plain.code = [] from hcode]
    rfl
  | cons i rest =>
    rw [hcode] at hhead hadvance
    rw [step, hhead, Configuration.step, show c.plain.code = i :: rest from hcode]
    show Except.map _ (execute _ i) = _
    rw [execute_plain, plain, hadvance]
    rfl

/-! ### Equal configurations -/

variable {n : Nat} {e : Framed}

theorem built_of_enterArms (h : c.continuation.Built) (g : Truth) (yes no : Code) :
    ∀ d ∈ c.enterArms g yes no, d.continuation.Built := by
  cases g with
  | yes => exact List.forall_mem_singleton.mpr (h.splice yes)
  | no => exact List.forall_mem_singleton.mpr (h.splice no)
  | any =>
    exact List.forall_mem_cons.mpr ⟨h.splice yes, List.forall_mem_singleton.mpr (h.splice no)⟩
  | uninitialized => exact List.forall_mem_nil _
  | error => exact List.forall_mem_singleton.mpr h

theorem built_of_leaveTry (h : c.continuation.Built) (handler : Code) :
    (c.leaveTry handler).continuation.Built := by
  unfold leaveTry
  split
  · exact h.splice handler
  · exact h

/-- What comes of an instruction has a continuation that can be made. -/
theorem built_of_execute {i : Instruction} {ds : List Framed} (h : c.continuation.Built)
    (hds : c.execute i = .ok ds) : ∀ d ∈ ds, d.continuation.Built := by
  cases i with
  | basic p op =>
    obtain ⟨cs, -, rfl⟩ := map_eq_ok hds
    exact List.forall_mem_map.mpr fun _ _ => h
  | branch p yes no =>
    obtain ⟨⟨g, c'⟩, -, hds⟩ := bind_eq_ok hds
    cases hds
    have hbuilt : (c.withData c').continuation.Built := h
    exact built_of_enterArms hbuilt g yes no
  | loop p guard body =>
    cases hds
    exact List.forall_mem_singleton.mpr ((h.splice _).splice _)
  | attempt p body handler =>
    cases hds
    exact List.forall_mem_singleton.mpr ((h.splice _).splice _)
  | dispatch p handler =>
    rw [execute] at hds
    split at hds
    · cases hds
    · cases hds
      exact List.forall_mem_singleton.mpr (built_of_leaveTry h handler)

theorem Steps.built (hs : c.Steps d) (h : c.continuation.Built) : d.continuation.Built := by
  obtain ⟨ds, hds, hd⟩ := hs
  rw [step] at hds
  split at hds
  · cases hds
  · exact built_of_execute h.advance hds d hd

theorem steps_plain_iff (h : c.continuation.Intact) {d : Configuration} :
    c.plain.Steps d ↔ ∃ d', c.Steps d' ∧ d'.plain = d := by
  unfold Configuration.Steps Steps
  rw [← step_plain h]
  cases c.step with
  | error f => simp [Except.map]
  | ok ds => simp [Except.map]

/-- Configurations with the same code, whatever its layout, step alike. -/
theorem alike_of_plain_eq (hc : c.continuation.Intact) (hd : d.continuation.Intact)
    (h : c.plain = d.plain) : Alike c.step d.step := by
  have hsame : c.step.map (List.map plain) = d.step.map (List.map plain) := by
    rw [step_plain hc, step_plain hd, h]
  cases hcs : c.step with
  | error f =>
    rw [hcs] at hsame
    rw [map_eq_error hsame.symm]
    exact .error f
  | ok cs =>
    rw [hcs] at hsame
    obtain ⟨ds, hds, hmap⟩ := map_eq_ok hsame.symm
    rw [hds]
    have hpointwise : (cs.map plain).Forall₂ (· = ·) (ds.map plain) := by
      rw [List.forall₂_eq_eq_eq]
      exact hmap.symm
    rw [List.forall₂_map_left_iff, List.forall₂_map_right_iff] at hpointwise
    exact .ok (hpointwise.imp fun _ _ => beq_iff.mpr)

/-- Each run from the one is matched by a run of as many steps from the other. -/
theorem ReachesIn.exists_of_plain_eq (hr : ReachesIn n c e) (hc : c.continuation.Built)
    (hd : d.continuation.Built) (h : c.plain = d.plain) :
    ∃ e', ReachesIn n d e' ∧ e.plain = e'.plain := by
  induction n generalizing c d with
  | zero =>
    cases hr
    exact ⟨d, rfl, h⟩
  | succ n ih =>
    obtain ⟨c', hs, hr⟩ := hr
    have hplain : d.plain.Steps c'.plain := h ▸ (steps_plain_iff hc.intact).mpr ⟨c', hs, rfl⟩
    obtain ⟨d', hs', hd'⟩ := (steps_plain_iff hd.intact).mp hplain
    obtain ⟨e', hr', he'⟩ := ih hr (hs.built hc) (hs'.built hd) hd'.symm
    exact ⟨e', ⟨d', hs', hr'⟩, he'⟩

/-- **Frames play no part.**  A continuation, whichever way it was made, has no exhausted frame and
answers as the list of its instructions does, and two of them are equal if these lists are.  The
step of a configuration is the one on plain code, so that equal configurations, whatever
their frames, meet the same fault or have equal successors, and the same along all runs. -/
theorem frames_play_no_part :
    (∀ k : Continuation, k.Built → k.ActsAs k.instructions) ∧
    (∀ k l : Continuation, (k == l) = true ↔ k.instructions = l.instructions) ∧
    (∀ c : Framed, c.continuation.Built → c.step.map (List.map plain) = c.plain.step) ∧
    ∀ c d : Framed, c.continuation.Built → d.continuation.Built → (c == d) = true →
      Alike c.step d.step ∧
        ∀ n e, ReachesIn n c e → ∃ e', ReachesIn n d e' ∧ (e == e') = true := by
  refine ⟨fun k h => h.intact.actsAs, fun k l => Continuation.beq_iff,
    fun c h => step_plain h.intact, ?_⟩
  intro c d hc hd hbeq
  have hplain := beq_iff.mp hbeq
  refine ⟨alike_of_plain_eq hc.intact hd.intact hplain, ?_⟩
  intro n e hr
  obtain ⟨e', hr', he'⟩ := hr.exists_of_plain_eq hc hd hplain
  exact ⟨e', hr', beq_iff.mpr he'⟩

def endlessLoop : Instruction := .loop 1 [.basic 1 (.truth true)] [.basic 2 .noop]

/-- A loop that is still to be entered, and something behind it, in one frame -/
def oneFrame : Framed :=
  ⟨.empty, [], .new [endlessLoop, .basic 3 .noop], false, 0, 0⟩

/-- The same code in two frames, the upper one with an instruction that the cursor has passed -/
def twoFrames : Framed :=
  { oneFrame with
    continuation := (((Continuation.new [.basic 3 .noop]).splice []).splice
      [.basic 0 .noop, endlessLoop]).advance }

theorem frames_play_no_part_at_loop :
    oneFrame.continuation.Built ∧ twoFrames.continuation.Built ∧
      oneFrame.continuation.frames.length = 1 ∧ twoFrames.continuation.frames.length = 2 ∧
      (oneFrame == twoFrames) = true ∧
      twoFrames.continuation.ActsAs oneFrame.continuation.instructions ∧
      Alike oneFrame.step twoFrames.step ∧
      twoFrames.step.map (List.map plain) = twoFrames.plain.step ∧
      ∀ n e, ReachesIn n oneFrame e → ∃ e', ReachesIn n twoFrames e' ∧ (e == e') = true := by
  have hone : oneFrame.continuation.Built := .new [endlessLoop, .basic 3 .noop]
  have htwo : twoFrames.continuation.Built :=
    .advance (.splice (.splice (.new [.basic 3 .noop]) []) [.basic 0 .noop, endlessLoop])
  have hbeq : (oneFrame == twoFrames) = true := by decide +kernel
  obtain ⟨hacts, hiff, hstep, halike⟩ := frames_play_no_part
  have hsame := (hiff oneFrame.continuation twoFrames.continuation).mp (by decide +kernel)
  refine ⟨hone, htwo, rfl, rfl, hbeq, hsame ▸ hacts _ htwo, ?_⟩
  exact ⟨(halike _ _ hone htwo hbeq).1, hstep _ htwo, (halike _ _ hone htwo hbeq).2⟩

end Framed

end SignAnalysis
