/-! Stateful programs that may stop, with a ghost log of the states they passed through. -/

open List

namespace LichenVm.LoggedRun

/-- What a run leaves. Nothing reads the log. -/
structure RunEnd (S V E A : Type) where
  answer : Except E A
  state : S
  log : List V

/-- A program over the state `S` that logs `V`, and answers `A` or stops with `E`. -/
def Run (S V E A : Type) : Type := S → RunEnd S V E A

variable {S V E A B : Type}

namespace Run

def pure (a : A) : Run S V E A := fun s => ⟨.ok a, s, []⟩

/-- Go on from where a first run left off, when it answered. -/
def goOn (first : RunEnd S V E A) (next : A → Run S V E B) : RunEnd S V E B :=
  match first.answer with
  | .ok a => let second := next a first.state
      ⟨second.answer, second.state, first.log ++ second.log⟩
  | .error stop => ⟨.error stop, first.state, first.log⟩

def bind (run : Run S V E A) (next : A → Run S V E B) : Run S V E B := fun s => goOn (run s) next

instance : Monad (Run S V E) where
  pure := pure
  bind := bind

def state : Run S V E S := fun s => ⟨.ok s, s, []⟩

def update (change : S → S) : Run S V E Unit := fun s => ⟨.ok (), change s, []⟩

def stop (reason : E) : Run S V E A := fun s => ⟨.error reason, s, []⟩

/-- Log what `view` sees of the state. -/
def note (view : S → V) : Run S V E Unit := fun s => ⟨.ok (), s, [view s]⟩

/-- The answer of an optional step; without one, stop. -/
def orStop (reason : E) : Option A → Run S V E A
  | some a => pure a
  | none => stop reason

/-- Run, and answer whether it stopped. -/
def attempt (run : Run S V E A) : Run S V E (Except E A) := fun s =>
  ⟨.ok (run s).answer, (run s).state, (run s).log⟩

/-- Run once for each item, in order. -/
def each (run : B → Run S V E A) : List B → Run S V E (List A)
  | [] => pure []
  | item :: items => bind (run item) fun a => bind (each run items) fun rest => pure (a :: rest)

end Run

/-- Why a run stopped, when it did. -/
def RunEnd.stopped (outcome : RunEnd S V E A) : Option E :=
  match outcome.answer with
  | .ok _ => none
  | .error stop => some stop

/-- What holds of a run's end: of its answer, or of the reason it stopped. -/
def RunEnd.Ends (good : A → S → Prop) (bad : E → S → Prop) (outcome : RunEnd S V E A) : Prop :=
  match outcome.answer with
  | .ok a => good a outcome.state
  | .error stop => bad stop outcome.state

theorem RunEnd.Ends.cases {good : A → S → Prop} {bad : E → S → Prop} {outcome : RunEnd S V E A}
    (ends : outcome.Ends good bad) :
    (∃ a, outcome.answer = .ok a ∧ good a outcome.state) ∨
      ∃ stop, outcome.answer = .error stop ∧ bad stop outcome.state := by
  unfold RunEnd.Ends at ends
  cases answered : outcome.answer with
  | ok a =>
    rw [answered] at ends
    exact .inl ⟨a, rfl, ends⟩
  | error stop =>
    rw [answered] at ends
    exact .inr ⟨stop, rfl, ends⟩

/-- A run from `s` ends well when all it logged is `sound`. -/
def Meets (sound : V → Prop) (run : Run S V E A) (s : S) (good : A → S → Prop)
    (bad : E → S → Prop) : Prop :=
  (∀ noted ∈ (run s).log, sound noted) → (run s).Ends good bad

theorem bind_ran (first : Run S V E A) {next : A → Run S V E B} {s s' : S} {a : A}
    (ran : first s = ⟨.ok a, s', []⟩) : (first >>= next) s = next a s' := by
  show Run.goOn (first s) next = _
  rw [ran]
  rfl

section Rules

variable {sound : V → Prop} {run : Run S V E A} {s : S} {good good' : A → S → Prop}
  {bad bad' : E → S → Prop}

theorem Meets.mono (meets : Meets sound run s good bad) (better : ∀ a s, good a s → good' a s)
    (worse : ∀ stop s, bad stop s → bad' stop s) : Meets sound run s good' bad' := by
  intro logged
  have ends := meets logged
  revert ends
  cases run s with
  | mk answer state log =>
    cases answer with
    | ok a => exact better a state
    | error stop => exact worse stop state

theorem meets_pure {a : A} (holds : good a s) : Meets sound (Run.pure a) s good bad :=
  fun _ => holds

theorem meets_stop {reason : E} (holds : bad reason s) :
    Meets sound (Run.stop reason : Run S V E A) s good bad :=
  fun _ => holds

variable {next : B → Run S V E A} {first : Run S V E B}

theorem meets_bind (meets : Meets sound first s (fun b s => Meets sound (next b) s good bad) bad) :
    Meets sound (first >>= next) s good bad := by
  intro logged
  change ∀ noted ∈ (Run.goOn (first s) next).log, sound noted at logged
  change (Run.goOn (first s) next).Ends good bad
  have ends := meets
  unfold Meets at ends
  revert logged ends
  cases first s with
  | mk answer state log =>
    cases answer with
    | ok b =>
      intro logged ends
      have later := ends fun noted member => logged noted (mem_append_left _ member)
      exact later fun noted member => logged noted (mem_append_right _ member)
    | error stop => exact fun logged ends => ends logged

theorem meets_step {b : B} {s' : S}
    (ran : first s = ⟨.ok b, s', []⟩) (meets : Meets sound (next b) s' good bad) :
    Meets sound (first >>= next) s good bad := by
  apply meets_bind
  intro _
  rw [ran]
  exact meets

theorem meets_note {view : S → V} {next : Unit → Run S V E A}
    (meets : sound (view s) → Meets sound (next ()) s good bad) :
    Meets sound (Run.note view >>= next) s good bad :=
  meets_bind fun logged => meets (logged _ mem_cons_self)

theorem meets_orStop {reason : E} {answer : Option B} (absent : answer = none → bad reason s)
    (present : ∀ b, answer = some b → Meets sound (next b) s good bad) :
    Meets sound (Run.orStop reason answer >>= next) s good bad := by
  cases answer with
  | none => exact meets_bind (meets_stop (absent rfl))
  | some b => exact meets_bind (meets_pure (present b rfl))

theorem meets_attempt {next : Except E B → Run S V E A}
    (meets : Meets sound first s (fun b s => Meets sound (next (.ok b)) s good bad)
      (fun stop s => Meets sound (next (.error stop)) s good bad)) :
    Meets sound (Run.attempt first >>= next) s good bad := by
  refine meets_bind fun logged => ?_
  have ends := meets logged
  change RunEnd.Ends _ _ ⟨.ok (first s).answer, (first s).state, (first s).log⟩
  revert ends
  cases first s with
  | mk answer state log => cases answer <;> exact id

end Rules

/-- A run keeps an invariant and stays within a frame, however it ends. -/
def Keeps (sound : V → Prop) (inv : S → Prop) (frame : S → S → Prop) (allowed : E → Prop)
    (run : Run S V E A) (s : S) (good : A → S → Prop) : Prop :=
  Meets sound run s (fun a s' => inv s' ∧ frame s s' ∧ good a s')
    fun stop s' => inv s' ∧ frame s s' ∧ allowed stop

section Frames

variable {sound : V → Prop} {inv : S → Prop} {frame : S → S → Prop} {allowed : E → Prop} {s : S}

variable {good : A → S → Prop}

theorem keeps_pure {a : A} (refl : ∀ s, frame s s) (holds : inv s)
    (ends : good a s) : Keeps sound inv frame allowed (Run.pure a) s good :=
  meets_pure ⟨holds, refl s, ends⟩

variable {next : B → Run S V E A}

theorem keeps_bind {first : Run S V E B} {middle : B → S → Prop} (trans :
    ∀ s s' s'', frame s s' → frame s' s'' → frame s s'')
    (starts : Keeps sound inv frame allowed first s middle)
    (goes : ∀ b s', inv s' → frame s s' → middle b s' →
      Keeps sound inv frame allowed (next b) s' good) :
    Keeps sound inv frame allowed (first >>= next) s good := by
  apply meets_bind
  refine Meets.mono starts (fun b s' kept => ?_) fun _ _ kept => kept
  obtain ⟨holds, framed, reached⟩ := kept
  exact Meets.mono (goes b s' holds framed reached)
    (fun _ _ later => ⟨later.1, trans _ _ _ framed later.2.1, later.2.2⟩)
    fun _ _ later => ⟨later.1, trans _ _ _ framed later.2.1, later.2.2⟩

theorem keeps_stop {reason : E} (refl : ∀ s, frame s s) (holds : inv s) (known : allowed reason) :
    Keeps sound inv frame allowed (Run.stop reason : Run S V E A) s good :=
  meets_stop ⟨holds, refl s, known⟩

theorem keeps_note {view : S → V} {next : Unit → Run S V E A}
    (goes : sound (view s) → Keeps sound inv frame allowed (next ()) s good) :
    Keeps sound inv frame allowed (Run.note view >>= next) s good :=
  meets_note goes

theorem keeps_orStop {reason : E} {answer : Option B} (refl : ∀ s, frame s s) (holds : inv s)
    (absent : answer = none → allowed reason)
    (present : ∀ b, answer = some b → Keeps sound inv frame allowed (next b) s good) :
    Keeps sound inv frame allowed (Run.orStop reason answer >>= next) s good :=
  meets_orStop (fun missing => ⟨holds, refl s, absent missing⟩) present

theorem Keeps.after {run : Run S V E A} {s' : S}
    (trans : ∀ s s' s'', frame s s' → frame s' s'' → frame s s'') (framed : frame s s')
    (kept : Keeps sound inv frame allowed run s' good) :
    Meets sound run s' (fun a s'' => inv s'' ∧ frame s s'' ∧ good a s'')
      fun stop s'' => inv s'' ∧ frame s s'' ∧ allowed stop :=
  Meets.mono kept (fun _ _ later => ⟨later.1, trans _ _ _ framed later.2.1, later.2.2⟩)
    fun _ _ later => ⟨later.1, trans _ _ _ framed later.2.1, later.2.2⟩

theorem keeps_step (first : Run S V E B) {b : B} {s' : S} (ran : first s = ⟨.ok b, s', []⟩)
    (trans : ∀ s s' s'', frame s s' → frame s' s'' → frame s s'') (framed : frame s s')
    (goes : Keeps sound inv frame allowed (next b) s' good) :
    Keeps sound inv frame allowed (first >>= next) s good :=
  meets_step ran (goes.after trans framed)

theorem Keeps.mono {run : Run S V E A} {good' : A → S → Prop}
    (kept : Keeps sound inv frame allowed run s good)
    (better : ∀ a s', inv s' → frame s s' → good a s' → good' a s') :
    Keeps sound inv frame allowed run s good' :=
  Meets.mono kept (fun a s' ends => ⟨ends.1, ends.2.1, better a s' ends.1 ends.2.1 ends.2.2⟩)
    fun _ _ ends => ends

/-- What a run for each item keeps, when what holds of one answer goes on holding. -/
theorem keeps_each {run : B → Run S V E A} {items : List B} (fits : B → A → S → Prop)
    (refl : ∀ s, frame s s) (trans : ∀ s s' s'', frame s s' → frame s' s'' → frame s s'')
    (stable : ∀ item a s s', inv s' → frame s s' → fits item a s → fits item a s')
    (holds : inv s)
    (step : ∀ item ∈ items, ∀ s', inv s' → frame s s' →
      Keeps sound inv frame allowed (run item) s' (fits item)) :
    Keeps sound inv frame allowed (Run.each run items) s
      fun answers s' => (∀ item ∈ items, ∃ a ∈ answers, fits item a s') ∧
        ∀ a ∈ answers, ∃ item ∈ items, fits item a s' := by
  induction items generalizing s with
  | nil =>
    exact keeps_pure refl holds ⟨fun item member => absurd member not_mem_nil,
      fun a member => absurd member not_mem_nil⟩
  | cons item items ih =>
    apply keeps_bind trans (step item mem_cons_self s holds (refl s))
    intro a s' holds' framed first
    apply keeps_bind trans (ih holds' fun other member s'' holds'' framed' =>
      step other (mem_cons_of_mem _ member) s'' holds'' (trans _ _ _ framed framed'))
    intro rest s'' holds'' framed' later
    have first := stable _ _ _ _ holds'' framed' first
    refine keeps_pure refl holds'' ⟨fun other member => ?_, fun other member => ?_⟩
    · rcases mem_cons.1 member with here | there
      · exact ⟨a, mem_cons_self, here ▸ first⟩
      · obtain ⟨answer, listed, fit⟩ := later.1 other there
        exact ⟨answer, mem_cons_of_mem _ listed, fit⟩
    · rcases mem_cons.1 member with here | there
      · exact ⟨item, mem_cons_self, here ▸ first⟩
      · obtain ⟨asked, listed, fit⟩ := later.2 other there
        exact ⟨asked, mem_cons_of_mem _ listed, fit⟩

end Frames

end LichenVm.LoggedRun
