import BoundedC.Proofs.Metering
import BoundedC.Proofs.Relocation

/-!
# Running the same program at other places

Places decide two things in a run: what errors report, and which buffer belongs to a literal. So a
program with other places runs as before, with those places, provided that different places stay
different. `Effect.Relocates σ x x'` says that `x'` does to a state with other places what `x` does to
the state.

* `relocates_literalStorage` : the one effect that compares places;
* `relocates_perform`, `relocates_step` : jobs and machines;
* `run_relocate` : whole runs. Memory, output and the count of statements contain no places.
-/

namespace BoundedC

/-! ## Machines and runs -/

instance : Located ForLoop where
  relocate σ loop :=
    ⟨σ loop.place, relocate σ loop.condition, relocate σ loop.increment, relocate σ loop.body⟩

instance : Located Job where
  relocate σ
    | .execute node => .execute (relocate σ node)
    | .evaluate node => .evaluate (relocate σ node)
    | .locate node access => .locate (relocate σ node) access
    | .discard place => .discard (σ place)
    | .closeScope place => .closeScope (σ place)
    | .binary op place => .binary op (σ place)
    | .logical op right place => .logical op (relocate σ right) (σ place)
    | .truth place => .truth (σ place)
    | .unary op place => .unary op (σ place)
    | .step op place => .step op (σ place)
    | .load place => .load (σ place)
    | .requirePointer place => .requirePointer (σ place)
    | .index place => .index (σ place)
    | .assign place => .assign (σ place)
    | .compoundAssign op place => .compoundAssign op (σ place)
    | .arrayLiteral count place => .arrayLiteral count (σ place)
    | .declare d asValue => .declare (relocate σ d) asValue
    | .call f place => .call (relocate σ f) (σ place)
    | .print place => .print (σ place)
    | .branch thenBranch elseBranch place =>
      .branch (relocate σ thenBranch) (relocate σ elseBranch) (σ place)
    | .whileTest condition body place =>
      .whileTest (relocate σ condition) (relocate σ body) (σ place)
    | .forCondition loop => .forCondition (relocate σ loop)
    | .forTest loop => .forTest (relocate σ loop)
    | .forNext loop => .forNext (relocate σ loop)
    | .continueTarget => .continueTarget
    | .loopEnd => .loopEnd
    | .giveBack hasValue place => .giveBack hasValue (σ place)
    | .bodyEnd place => .bodyEnd (σ place)

instance : Located Pending := ⟨fun σ p => ⟨relocate σ p.jobs, p.operands⟩⟩

instance : Located Machine := ⟨fun σ m => ⟨relocate σ m.pending, m.bases⟩⟩

instance : Located Progress where
  relocate σ
    | .running m => .running (relocate σ m)
    | .exited code => .exited code

instance : Located Run where
  relocate σ
    | .underWay m s => .underWay (relocate σ m) (relocate σ s)
    | .ended result s => .ended (relocate σ result) (relocate σ s)

variable {α β : Type} {σ : Location → Location}

theorem Stack.top?_map (f : α → β) (s : Stack α) : (s.map f).top? = s.top?.map f :=
  List.head?_map

theorem Stack.pop_map (f : α → β) (s : Stack α) : (s.map f).pop = s.pop.map f := by
  ext1
  exact List.map_tail.symm

theorem Stack.drop_map (f : α → β) (s : Stack α) (count : Nat) :
    (s.map f).drop count = (s.drop count).map f := by
  ext1
  exact List.map_drop.symm

theorem Stack.pushAll_map (f : α → β) (s : Stack α) (as : List α) :
    (s.map f).pushAll (as.map f) = (s.pushAll as).map f := by
  ext1
  exact List.map_append.symm

theorem Stack.modifyTop_map {f : α → β} {g : α → α} {g' : β → β} (h : ∀ a, g' (f a) = f (g a))
    (s : Stack α) : (s.map f).modifyTop g' = (s.modifyTop g).map f := by
  obtain ⟨items, height, hlength⟩ := s
  ext1
  cases items with
  | nil => rfl
  | cons a items => exact congrArg (· :: items.map f) (h a)

theorem map_relocate [Located α] [Located β] (f : α → β)
    (hf : ∀ a, f (relocate σ a) = relocate σ (f a)) (as : List α) : (relocate σ as).map f = relocate σ (as.map f) := by
  show (as.map (relocate σ)).map f = (as.map f).map (relocate σ)
  rw [List.map_map, List.map_map]
  exact List.map_congr_left fun a _ => hf a

theorem map_execute_relocate (nodes : List Node) :
    (relocate σ nodes).map Job.execute = relocate σ (nodes.map Job.execute) :=
  map_relocate Job.execute (fun _ => rfl) nodes

theorem map_evaluate_relocate (nodes : List Node) :
    (relocate σ nodes).map Job.evaluate = relocate σ (nodes.map Job.evaluate) :=
  map_relocate Job.evaluate (fun _ => rfl) nodes

theorem owned_relocate (a : Activation) : (relocate σ a).owned = a.owned := by
  show a.scopeBuffers ++ (a.literals.map (relocate σ)).map (·.2) = a.scopeBuffers ++ _
  rw [List.map_map]
  rfl

theorem schedule_relocate (p : Pending) (jobs : List Job) :
    (relocate σ p).schedule (relocate σ jobs) = relocate σ (p.schedule jobs) :=
  congrArg (Pending.mk · p.operands) (Stack.pushAll_map _ p.jobs jobs)

theorem enter_relocate (f : Function) (p : Pending) (bases : List Heights) :
    Machine.enter (relocate σ f) (relocate σ p) bases = relocate σ (Machine.enter f p bases) := by
  have hjobs : (relocate σ f).body.map Job.execute ++ [.bodyEnd (relocate σ f).place] =
      relocate σ (f.body.map Job.execute ++ [.bodyEnd f.place]) := by
    rw [relocate_append, ← map_execute_relocate]
    rfl
  unfold Machine.enter
  rw [hjobs, schedule_relocate]
  rfl

/-! ## Effects -/

namespace Effect

variable [Located α] [Located β]

/-- What the second effect does to a relocated state is what the first one does to the state. -/
def Relocates (σ : Location → Location) (x x' : Effect α) : Prop :=
  ∀ s, x'.run (relocate σ s) = Prod.map (relocate σ) (relocate σ) (x.run s)

namespace Relocates

theorem pure (a : α) : Relocates σ (pure a) (pure (relocate σ a)) := fun _ => rfl

theorem same [Placeless α] (a : α) : Relocates σ (Pure.pure a) (Pure.pure a) := by
  intro s
  show (Except.ok a, relocate σ s) = (.ok (relocate σ a), relocate σ s)
  rw [relocate_eq_self a]

theorem fail (place : Location) (fault : RuntimeFault) :
    Relocates σ (Effect.fail place fault : Effect α) (Effect.fail (σ place) fault) := fun _ => rfl

theorem bind {x x' : Effect α} {f f' : α → Effect β} (hx : Relocates σ x x')
    (hf : ∀ a, Relocates σ (f a) (f' (relocate σ a))) : Relocates σ (x >>= f) (x' >>= f') := by
  intro s
  rw [run_bind, run_bind, hx s]
  rcases x.run s with ⟨e | a, t⟩
  · rfl
  · exact hf a t

/-- What comes first yields something without places. -/
theorem after [Placeless α] {x x' : Effect α} {f f' : α → Effect β} (hx : Relocates σ x x')
    (hf : ∀ a, Relocates σ (f a) (f' a)) : Relocates σ (x >>= f) (x' >>= f') := by
  refine hx.bind fun a => ?_
  rw [relocate_eq_self]
  exact hf a

theorem discard {x x' : Effect α} (hx : Relocates σ x x') :
    Relocates σ (Functor.discard x) (Functor.discard x') :=
  hx.bind fun _ => .pure ()

/-- A guard that fails at a place. -/
theorem guard (place : Location) (fault : RuntimeFault) (p : Prop) [Decidable p] {x x' : Effect α}
    (hx : Relocates σ x x') :
    Relocates σ (if p then (do Effect.fail place fault; x) else x)
      (if p then (do Effect.fail (σ place) fault; x') else x') := by
  split
  · exact fun _ => rfl
  · exact hx

end Relocates

theorem relocates_get_bind {f f' : ProgramState → Effect α}
    (hf : ∀ s, Relocates σ (f s) (f' (relocate σ s))) : Relocates σ (get >>= f) (get >>= f') :=
  fun s => hf s s

theorem relocates_modify {f f' : ProgramState → ProgramState}
    (hf : ∀ s, f' (relocate σ s) = relocate σ (f s)) :
    Relocates σ (modify f : Effect Unit) (modify f') := by
  intro s
  show (Except.ok (), f' (relocate σ s)) = (.ok (), relocate σ (f s))
  rw [hf]

theorem relocates_ofExcept (place : Location) (x : Except RuntimeFault α) :
    Relocates σ (ofExcept place x) (ofExcept (σ place) (x.map (relocate σ))) := by
  cases x with
  | ok a => exact .pure a
  | error fault => exact .fail place fault

theorem relocates_ofExcept_same [Placeless α] (place : Location) (x : Except RuntimeFault α) :
    Relocates σ (ofExcept place x) (ofExcept (σ place) x) := by
  cases x with
  | ok a => exact .same a
  | error fault => exact .fail place fault

/-! ## Memory, calls and output -/

section Memory

variable [Placeless α]

theorem relocates_onMemory (place : Location) (f : Arena → Except MemoryFault α × Arena) :
    Relocates σ (onMemory place f) (onMemory (σ place) f) := by
  intro s
  have hmemory : (relocate σ s).memory = s.memory := rfl
  rcases hm : f s.memory with ⟨fault | a, m⟩
  · rw [run_onMemory_of_error hm, run_onMemory_of_error (hmemory ▸ hm)]
    rfl
  · rw [run_onMemory_of_ok hm, run_onMemory_of_ok (hmemory ▸ hm)]
    exact Relocates.same a ⟨m, s.calls, s.sink, s.steps⟩

theorem relocates_readMemory (place : Location) (f : Arena → Except MemoryFault α) :
    Relocates σ (readMemory place f) (readMemory (σ place) f) := by
  refine relocates_get_bind fun s => ?_
  have hmemory : (relocate σ s).memory = s.memory := rfl
  rw [hmemory]
  cases f s.memory with
  | ok a => exact .same a
  | error fault => exact .fail place _

end Memory

theorem relocates_load (place : Location) (p : Pointer) :
    Relocates σ (load place p) (load (σ place) p) := relocates_readMemory _ _

theorem relocates_store (place : Location) (p : Pointer) (v : Value) :
    Relocates σ (store place p v) (store (σ place) p v) := relocates_onMemory _ _

theorem relocates_storeSlots (place : Location) (id : BufferId) (type : CType)
    (values : List (Value × Nat)) :
    Relocates σ (storeSlots place id type values) (storeSlots (σ place) id type values) := by
  induction values with
  | nil => exact .pure ()
  | cons head rest ih => exact (relocates_store place _ _).discard.after fun _ => ih

theorem relocates_releaseAll (ids : List BufferId) :
    Relocates σ (releaseAll ids) (releaseAll ids) := fun _ => rfl

theorem relocates_current (place : Location) :
    Relocates σ (current place) (current (σ place)) := by
  refine relocates_get_bind fun s => ?_
  have htop : (relocate σ s).calls.top? = s.calls.top?.map (relocate σ) := Stack.top?_map _ s.calls
  rw [htop]
  cases s.calls.top? with
  | some a => exact .pure a
  | none => exact .fail place _

theorem relocates_modifyCurrent (place : Location) {f f' : Activation → Activation}
    (hf : ∀ a, f' (relocate σ a) = relocate σ (f a)) :
    Relocates σ (modifyCurrent place f) (modifyCurrent (σ place) f') := by
  refine (relocates_current place).discard.after fun _ => relocates_modify fun s => ?_
  exact congrArg (ProgramState.mk s.memory · s.sink s.steps) (Stack.modifyTop_map hf s.calls)

theorem relocates_openScope (place : Location) :
    Relocates σ (openScope place) (openScope (σ place)) :=
  relocates_modifyCurrent place fun _ => rfl

theorem relocates_closeScope (place : Location) :
    Relocates σ (closeScope place) (closeScope (σ place)) :=
  (relocates_current place).bind fun a => (relocates_releaseAll a.innermost.buffers).after fun _ =>
    relocates_modifyCurrent place fun _ => rfl

theorem relocates_lookup (place : Location) (name : String) :
    Relocates σ (lookup place name) (lookup (σ place) name) := by
  refine relocates_get_bind fun s => ?_
  have hlookup : (relocate σ s).calls.top?.bind (·.lookup? name) =
      s.calls.top?.bind (·.lookup? name) := by
    show (s.calls.map (relocate σ)).top?.bind _ = _
    rw [Stack.top?_map, Option.bind_map]
    rfl
  rw [hlookup]
  cases s.calls.top?.bind (·.lookup? name) with
  | some b => exact .pure b
  | none => exact .fail place _

theorem relocates_write (place : Location) (bytes : List UInt8) :
    Relocates σ (write place bytes) (write (σ place) bytes) := by
  intro s
  have hsink : (relocate σ s).sink = s.sink := rfl
  rcases hwrite : s.sink.write bytes with ⟨fault | a, sink⟩
  · rw [run_write_of_error hwrite, run_write_of_error (hsink ▸ hwrite)]
    rfl
  · rw [run_write_of_ok hwrite, run_write_of_ok (hsink ▸ hwrite)]
    rfl

/-! ## Operations -/

theorem relocates_variablePlace (place : Location) (name : String) (access : Access) :
    Relocates σ (variablePlace place name access) (variablePlace (σ place) name access) :=
  (relocates_lookup place name).after fun b => .guard place _ _ (.pure b.pointer)

theorem relocates_variableValue (place : Location) (name : String) :
    Relocates σ (variableValue place name) (variableValue (σ place) name) :=
  (relocates_lookup place name).after fun _ => relocates_load place _

theorem relocates_pointerPlace (place : Location) (v : Value) :
    Relocates σ (pointerPlace place v) (pointerPlace (σ place) v) := by
  cases v with
  | pointer p => exact .pure p
  | _ => exact .fail place _

theorem relocates_elementPlace (place : Location) (array index : Value) :
    Relocates σ (elementPlace place array index) (elementPlace (σ place) array index) :=
  relocates_ofExcept_same place _

theorem relocates_assign (place : Location) (target : Pointer) (v : Value) :
    Relocates σ (assign place target v) (assign (σ place) target v) := by
  unfold assign
  split
  · exact .fail place _
  · exact relocates_store place target v

theorem relocates_compoundAssign (op : BinaryOp) (place : Location) (target : Pointer) (v : Value) :
    Relocates σ (compoundAssign op place target v) (compoundAssign op (σ place) target v) :=
  (relocates_load place target).after fun _ => (relocates_ofExcept_same place _).after fun _ =>
    relocates_assign place target _

theorem relocates_stepPlace (op : StepOp) (place : Location) (target : Pointer) :
    Relocates σ (step op place target) (step op (σ place) target) :=
  (relocates_load place target).after fun _ => (relocates_ofExcept_same place _).after fun _ =>
    (relocates_store place target _).after fun _ => .same _

theorem relocates_print (place : Location) (start length : Value) :
    Relocates σ (print place start length) (print (σ place) start length) := by
  unfold print
  split
  · exact .fail place _
  · exact .fail place _
  · refine .guard place _ _ ?_
    exact (relocates_readMemory place _).after fun bytes => (relocates_write place bytes).after fun _ =>
      .same (Value.int 0)

/-! ## Literals and declarations -/

/-- The buffer of a literal is found by the literal's place, so different places must stay
different. -/
theorem relocates_literalStorage (hσ : Function.Injective σ) (site : Location) (length : Nat) :
    Relocates σ (literalStorage site length) (literalStorage (σ site) length) := by
  have hfresh : Relocates σ (literalStorage.fresh site length)
      (literalStorage.fresh (σ site) length) :=
    (relocates_onMemory site _).after fun id =>
      .after (relocates_modifyCurrent site fun _ => rfl) fun _ => .same id
  refine (relocates_current site).bind fun a => ?_
  dsimp only
  rw [literal?_relocate hσ]
  cases a.literal? site with
  | some id =>
    refine relocates_get_bind fun s => ?_
    show Relocates σ (if (s.memory.get? id).any _ then _ else _)
      (if (s.memory.get? id).any _ then _ else _)
    split
    · exact .same id
    · exact hfresh
  | none => exact hfresh

theorem relocates_stringLiteral (hσ : Function.Injective σ) (site : Location) (bytes : List UInt8) :
    Relocates σ (stringLiteral site bytes) (stringLiteral (σ site) bytes) :=
  (relocates_literalStorage hσ site _).after fun _ => (relocates_onMemory site _).after fun _ => .same _

theorem relocates_filledLiteral (hσ : Function.Injective σ) (site : Location) (element : CType)
    (values : List Value) :
    Relocates σ (filledLiteral site element values) (filledLiteral (σ site) element values) :=
  (relocates_literalStorage hσ site _).after fun id =>
    (relocates_storeSlots site id element _).after fun _ => .same id

theorem relocates_arrayLiteral (hσ : Function.Injective σ) (site : Location) (values : List Value) :
    Relocates σ (arrayLiteral site values) (arrayLiteral (σ site) values) :=
  (relocates_filledLiteral hσ site _ values).after fun _ => .same _

theorem relocates_fill (hσ : Function.Injective σ) (d : Declaration) (b : Binding)
    (values : List Value) : Relocates σ (d.fill b values) ((relocate σ d).fill b values) := by
  obtain ⟨place, name, type, isConst, init⟩ := d
  cases init with
  | none => cases type <;> exact .pure ()
  | some init =>
    have hvalue : Relocates σ ((Declaration.mk place name .int isConst (some init)).fill b values)
        ((Declaration.mk (σ place) name .int isConst (some (relocate σ init))).fill b values) := by
      simp only [Declaration.fill]
      rcases values with _ | ⟨v, _ | ⟨v', values⟩⟩
      · exact .fail place _
      · exact (relocates_store place _ _).discard
      · exact .fail place _
    have hdeclaration (init : Node) : relocate σ (Declaration.mk place name type isConst (some init)) =
        ⟨σ place, name, type, isConst, some (relocate σ init)⟩ := rfl
    rw [hdeclaration]
    cases type with
    | array element length =>
      cases init with
      | stringLiteral site bytes =>
        unfold Declaration.fill
        dsimp only [relocate, Node.relocate]
        split
        · exact relocates_onMemory place _
        · exact .fail place _
      | arrayLiteral site elements =>
        have hslots : (Node.arrayLiteral (σ site) (relocate σ elements)).slots 0 (.array element length)
            = (Node.arrayLiteral site elements).slots 0 (.array element length) := by
          rw [← relocate_arrayLiteral]
          exact slots_relocate 0 _ _
        rw [relocate_arrayLiteral]
        unfold Declaration.fill
        dsimp only
        rw [hslots]
        split
        · exact relocates_storeSlots place _ _ _
        · exact .fail place _
        · exact fun _ => rfl
      | _ => exact .fail place _
    | pointer pointee =>
      cases init with
      | arrayLiteral site elements =>
        rw [relocate_arrayLiteral]
        unfold Declaration.fill
        dsimp only
        split
        · exact .fail place _
        · exact (relocates_filledLiteral hσ site pointee values).after fun _ =>
            (relocates_store place _ _).discard
      | _ => exact hvalue
    | _ => cases init <;> exact hvalue

theorem relocates_define (hσ : Function.Injective σ) (d : Declaration) (values : List Value) :
    Relocates σ (d.define values) ((relocate σ d).define values) := by
  refine .guard d.place _ _ ?_
  exact (relocates_onMemory d.place _).after fun _ =>
    .after (relocates_modifyCurrent d.place fun _ => rfl) fun _ =>
    (relocates_fill hσ d _ values).after fun _ => .same _

/-! ## Calls -/

theorem relocates_countStep (limits : Limits) (place : Location) :
    Relocates σ (countStep limits place) (countStep limits (σ place)) := by
  refine .after (relocates_modify fun _ => rfl) fun _ => ?_
  cases limits.maxSteps with
  | none => exact .pure ()
  | some limit =>
    refine relocates_get_bind fun s => ?_
    show Relocates σ (if limit < s.steps then _ else _) (if limit < s.steps then _ else _)
    split
    · exact .fail place _
    · exact .pure ()

theorem relocates_bindParams (place : Location) (a : Activation) (params : List (Param × Value)) :
    Relocates σ (bindParams place a params) (bindParams (σ place) (relocate σ a) params) := by
  induction params generalizing a with
  | nil => exact .pure a
  | cons head rest ih =>
    exact (relocates_onMemory place _).after fun _ => (relocates_store place _ _).discard.after fun _ =>
      ih _

theorem relocates_enterCall (limits : Limits) (f : Function) (args : List Value)
    (callSite : Option Location) :
    Relocates σ (enterCall limits f args callSite)
      (enterCall limits (relocate σ f) args (relocate σ callSite)) := by
  have hplace : (relocate σ callSite).getD (relocate σ f).place = σ (callSite.getD f.place) := by
    cases callSite <;> rfl
  unfold enterCall
  dsimp only
  rw [hplace]
  refine relocates_get_bind fun s => .guard _ _ _ ?_
  exact (relocates_bindParams _ (.start f.name f.returnType callSite) _).bind fun a =>
    relocates_modify fun _ => rfl

theorem relocates_popCall (place : Location) :
    Relocates σ (popCall place) (popCall (σ place)) := by
  refine (relocates_current place).bind fun a => ?_
  refine .after (relocates_modify fun s => ?_) fun _ => .pure a
  exact congrArg (ProgramState.mk s.memory · s.sink s.steps) (Stack.pop_map _ s.calls)

theorem relocates_callResult (place : Location) (returnType : CType) (v : Option Value) :
    Relocates σ (callResult place returnType v) (callResult (σ place) returnType v) := by
  cases v with
  | none => exact .same (Value.int 0)
  | some v =>
    unfold callResult
    dsimp only
    split
    · exact .same (Value.int 0)
    · exact relocates_readMemory place _

theorem relocates_leaveCall (place : Location) (value : Option Value) :
    Relocates σ (leaveCall place value) (leaveCall (σ place) value) := by
  refine (relocates_popCall place).bind fun a => ?_
  rw [owned_relocate]
  exact (relocates_callResult place a.returnType value).after fun result =>
    (relocates_releaseAll a.owned).after fun _ => .same result

theorem relocates_exitValue (place : Location) (result : Value) :
    Relocates σ (exitValue place result) (exitValue (σ place) result) := by
  unfold exitValue
  split
  · exact .same _
  · exact .fail place _

theorem relocates_bindArgumentsFrom (place : Location) (table : BufferId) (slot : Nat)
    (args : List (List UInt8)) :
    Relocates σ (bindArgumentsFrom place table slot args)
      (bindArgumentsFrom (σ place) table slot args) := by
  induction args generalizing slot with
  | nil => exact .pure ()
  | cons arg rest ih =>
    exact (relocates_onMemory place _).after fun _ => (relocates_storeSlots place table _ _).after fun _ =>
      ih _

theorem relocates_bindArguments (place : Location) (args : List (List UInt8)) :
    Relocates σ (bindArguments place args) (bindArguments (σ place) args) :=
  (relocates_onMemory place _).after fun table =>
    (relocates_bindArgumentsFrom place table 0 args).after fun _ => .guard place _ _ (.same _)

theorem relocates_enterMain (i : Interpreter) (args : List (List UInt8)) :
    Relocates σ (i.enterMain args) ((relocate σ i).enterMain args) := by
  unfold Interpreter.enterMain
  rw [Interpreter.function?_relocate]
  cases i.function? Interpreter.entryPoint with
  | none => exact fun _ => rfl
  | some main =>
    refine .guard main.place _ _ ?_
    exact (relocates_bindArguments main.place args).after fun values =>
      (relocates_enterCall i.limits main _ none).after fun _ => .pure main

end Effect

/-! ## Jobs -/

open Effect

namespace Pending

theorem relocates_schedule (p : Pending) (jobs : List Job) {jobs' : List Job}
    (h : jobs' = relocate σ jobs) :
    Relocates σ (pure (p.schedule jobs)) (pure ((relocate σ p).schedule jobs')) := by
  rw [h, schedule_relocate]
  exact .pure _

theorem relocates_pop (place : Location) (p : Pending) :
    Relocates σ (p.pop place) ((relocate σ p).pop (σ place)) := by
  unfold pop
  have htop : (relocate σ p).operands.top? = p.operands.top? := rfl
  rw [htop]
  cases p.operands.top? with
  | some v => exact .pure (v, Pending.mk p.jobs p.operands.pop)
  | none => exact .fail place _

theorem relocates_popPlace (place : Location) (p : Pending) :
    Relocates σ (p.popPlace place) ((relocate σ p).popPlace (σ place)) := by
  refine (relocates_pop place p).bind fun ⟨v, p⟩ => ?_
  cases v with
  | pointer target => exact .pure (target, p)
  | _ => exact .fail place _

theorem relocates_popMany (place : Location) (p : Pending) (count : Nat) :
    Relocates σ (p.popMany place count) ((relocate σ p).popMany (σ place) count) := by
  unfold popMany
  show Relocates σ (if count ≤ p.operands.height then _ else _)
    (if count ≤ p.operands.height then _ else _)
  split
  · have hpopped : Relocates σ (pure _) (pure (relocate σ ((p.operands.items.take count).reverse,
        Pending.mk p.jobs (p.operands.drop count)))) := .pure _
    rw [relocate_pair, relocate_eq_self] at hpopped
    exact hpopped
  · exact .fail place _

theorem relocates_unwind (place : Location) {isTarget : Job → Bool}
    (htarget : ∀ job : Job, isTarget (relocate σ job) = isTarget job) (jobs : List Job)
    (stack : Stack Job) :
    Relocates σ (unwind place isTarget jobs stack)
      (unwind (σ place) isTarget (relocate σ jobs) (relocate σ stack)) := by
  induction jobs generalizing stack with
  | nil => exact .fail place _
  | cons job rest ih =>
    have hpop : (relocate σ stack).pop = relocate σ stack.pop := Stack.pop_map _ stack
    cases job with
    | bodyEnd => exact .fail place _
    | closeScope =>
      refine (relocates_closeScope place).after fun _ => ?_
      rw [hpop]
      exact ih stack.pop
    | _ =>
      show Relocates σ (if isTarget _ then _ else _) (if isTarget (relocate σ _) then _ else _)
      rw [htarget, hpop]
      split
      · exact .pure stack.pop
      · exact ih stack.pop

theorem relocates_unwindTo (place : Location) {isTarget : Job → Bool}
    (htarget : ∀ job : Job, isTarget (relocate σ job) = isTarget job) (p : Pending) :
    Relocates σ (p.unwindTo place isTarget) ((relocate σ p).unwindTo (σ place) isTarget) :=
  (relocates_unwind place htarget p.jobs.items p.jobs).bind fun jobs =>
    .pure (Pending.mk jobs p.operands)

/-! ### What a job does with the operands it takes -/

theorem relocates_pop_bind {p : Pending} {place : Location}
    {f f' : Value × Pending → Effect Pending}
    (hf : ∀ v p, Relocates σ (f (v, p)) (f' (v, relocate σ p))) :
    Relocates σ (p.pop place >>= f) ((relocate σ p).pop (σ place) >>= f') :=
  (relocates_pop place p).bind fun r => hf r.1 r.2

theorem relocates_popPlace_bind {p : Pending} {place : Location}
    {f f' : Pointer × Pending → Effect Pending}
    (hf : ∀ target p, Relocates σ (f (target, p)) (f' (target, relocate σ p))) :
    Relocates σ (p.popPlace place >>= f) ((relocate σ p).popPlace (σ place) >>= f') :=
  (relocates_popPlace place p).bind fun r => hf r.1 r.2

theorem relocates_push {x x' : Effect Value} (hx : Relocates σ x x') (p : Pending) :
    Relocates σ (do return p.push (← x)) (do return (relocate σ p).push (← x')) :=
  hx.after fun v => .pure (p.push v)

theorem relocates_declare (hσ : Function.Injective σ) (d : Declaration) (asValue : Bool)
    (p : Pending) :
    Relocates σ (p.declare d asValue) ((relocate σ p).declare (relocate σ d) asValue) := by
  have hcount : (relocate σ d).operands.length = d.operands.length := by
    rw [operands_relocate, length_relocate]
  unfold declare
  rw [hcount]
  refine (relocates_popMany d.place p _).bind fun ⟨values, p⟩ => ?_
  rw [relocate_pair, relocate_eq_self values]
  refine (relocates_define hσ d values).after fun b => ?_
  cases asValue with
  | true => exact relocates_push (relocates_load d.place b.pointer) p
  | false => exact .pure p

end Pending

namespace Interpreter

variable (i : Interpreter)

theorem relocates_declare (d : Declaration) (asValue : Bool) (p : Pending) :
    Relocates σ (pure (declare d asValue p)) (pure (declare (relocate σ d) asValue (relocate σ p))) := by
  refine Pending.relocates_schedule p _ ?_
  rw [operands_relocate, relocate_append, ← map_evaluate_relocate]
  rfl

theorem relocates_evaluate (hσ : Function.Injective σ) (node : Node) (p : Pending) :
    Relocates σ (i.evaluate node p) ((relocate σ i).evaluate (relocate σ node) (relocate σ p)) := by
  cases node with
  | stringLiteral place bytes =>
    exact (relocates_stringLiteral hσ place bytes).after fun v => .pure (p.push v)
  | arrayLiteral place elements =>
    rw [relocate_arrayLiteral]
    refine Pending.relocates_schedule p _ ?_
    rw [length_relocate, relocate_append, ← map_evaluate_relocate]
    rfl
  | identifier place name =>
    exact (relocates_variableValue place name).after fun v => .pure (p.push v)
  | binary place op left right =>
    show Relocates σ (if op.isLogical then _ else _) (if op.isLogical then _ else _)
    split <;> exact Pending.relocates_schedule p _ rfl
  | call place name args =>
    rw [relocate_call]
    unfold evaluate
    dsimp only
    rw [callee_relocate, length_relocate]
    refine (relocates_ofExcept place _).bind fun callee => Pending.relocates_schedule p _ ?_
    rw [relocate_append, ← map_evaluate_relocate]
    cases callee <;> rfl
  | declaration place name type isConst init =>
    rw [relocate_declaration]
    exact relocates_declare ⟨place, name, type, isConst, init⟩ true p
  | intLiteral place n => exact .pure (p.push (.int n))
  | charLiteral place c => exact .pure (p.push (.char c))
  | unary | step | deref | index | addressOf | assign | compoundAssign =>
    exact Pending.relocates_schedule p _ rfl
  | _ => exact .fail _ _

theorem relocates_locate (node : Node) (access : Access) (p : Pending) :
    Relocates σ (locate node access p) (locate (relocate σ node) access (relocate σ p)) := by
  cases node with
  | identifier place name =>
    exact (relocates_variablePlace place name access).after fun target => .pure (p.push (.pointer target))
  | deref | index => exact Pending.relocates_schedule p _ rfl
  | _ => exact .fail _ _

theorem relocates_executed (node : Node) (p : Pending) :
    Relocates σ (executed node p) (executed (relocate σ node) (relocate σ p)) := by
  cases node with
  | declaration place name type isConst init =>
    rw [relocate_declaration]
    exact relocates_declare ⟨place, name, type, isConst, init⟩ false p
  | block place statements =>
    rw [relocate_block]
    refine (relocates_openScope place).after fun _ => Pending.relocates_schedule p _ ?_
    rw [relocate_append, ← map_execute_relocate]
    rfl
  | ifElse place condition thenBranch elseBranch =>
    rw [relocate_ifElse]
    exact Pending.relocates_schedule p _ rfl
  | forLoop place init condition increment body =>
    rw [relocate_forLoop]
    refine (relocates_openScope place).after fun _ => Pending.relocates_schedule p _ ?_
    cases init <;> rfl
  | returnFrom place value =>
    rw [relocate_returnFrom]
    cases value <;> exact Pending.relocates_schedule p _ rfl
  | breakLoop place =>
    exact Pending.relocates_unwindTo place (fun job => by cases job <;> rfl) p
  | continueLoop place =>
    exact Pending.relocates_unwindTo place (fun job => by cases job <;> rfl) p
  | function place name => exact .fail _ _
  | _ => exact Pending.relocates_schedule p _ rfl

theorem relocates_execute (node : Node) (p : Pending) :
    Relocates σ (i.execute node p) ((relocate σ i).execute (relocate σ node) (relocate σ p)) := by
  rw [execute_eq, execute_eq, place_relocate]
  exact (relocates_countStep i.limits node.place).after fun _ => relocates_executed node p

theorem cutTo_relocate (p : Pending) (base : Heights) :
    (relocate σ p).cutTo base = relocate σ (p.cutTo base) :=
  congrArg (Pending.mk · (p.operands.cutTo base.operands)) (Stack.drop_map _ p.jobs _)

theorem relocates_resume (result : Value) (place : Location) (p : Pending) (bases : List Heights) :
    Relocates σ (resume result place p bases) (resume result (σ place) (relocate σ p) bases) := by
  have hexit : Relocates σ (do return Progress.exited (← exitValue place result))
      (do return Progress.exited (← exitValue (σ place) result)) :=
    (relocates_exitValue place result).after fun code => .pure (Progress.exited code)
  match bases with
  | [] | [_] => exact hexit
  | base :: caller :: bases =>
    unfold resume
    dsimp only
    rw [cutTo_relocate]
    exact .pure (Progress.running ⟨(p.cutTo base).push result, caller :: bases⟩)

theorem relocates_giveBack (value : Option Value) (place : Location) (p : Pending)
    (bases : List Heights) :
    Relocates σ (giveBack value place p bases) (giveBack value (σ place) (relocate σ p) bases) :=
  (relocates_leaveCall place value).after fun result => relocates_resume result place p bases

theorem relocates_call (f : Function) (place : Location) (p : Pending) (bases : List Heights) :
    Relocates σ (i.call f place p bases)
      ((relocate σ i).call (relocate σ f) (σ place) (relocate σ p) bases) := by
  refine (Pending.relocates_popMany place p f.params.length).bind fun ⟨args, p⟩ => ?_
  rw [relocate_pair, relocate_eq_self args]
  refine (relocates_enterCall i.limits f args (some place)).after fun _ => ?_
  rw [enter_relocate]
  exact .pure (Progress.running (.enter f p bases))

/-- A job does at other places what it does. -/
theorem relocates_perform (hσ : Function.Injective σ) (job : Job) (p : Pending)
    (bases : List Heights) :
    Relocates σ (i.perform job p bases)
      ((relocate σ i).perform (relocate σ job) (relocate σ p) bases) := by
  have hgo {next next' : Effect Pending} (hnext : Relocates σ next next') :
      Relocates σ (do return Progress.running ⟨← next, bases⟩)
        (do return Progress.running ⟨← next', bases⟩) :=
    hnext.bind fun p => .pure (Progress.running ⟨p, bases⟩)
  cases job with
  | execute node => exact hgo (relocates_execute i node p)
  | evaluate node => exact hgo (relocates_evaluate i hσ node p)
  | locate node access => exact hgo (relocates_locate node access p)
  | discard place => exact hgo (Pending.relocates_pop_bind fun _ p => .pure p)
  | closeScope place => exact hgo ((relocates_closeScope place).after fun _ => .pure p)
  | binary op place =>
    refine hgo (Pending.relocates_pop_bind fun right p => ?_)
    refine Pending.relocates_pop_bind fun left p => ?_
    exact Pending.relocates_push (relocates_ofExcept_same place (op.apply left right)) p
  | logical op right place =>
    refine hgo (Pending.relocates_pop_bind fun v p => ?_)
    dsimp only
    split
    · rename_i answer _
      exact .pure (p.push (.ofBool answer))
    · exact Pending.relocates_schedule p _ rfl
  | truth place => exact hgo (Pending.relocates_pop_bind fun v p => .pure (p.push (.ofBool v.isTruthy)))
  | unary op place =>
    refine hgo (Pending.relocates_pop_bind fun v p => ?_)
    exact Pending.relocates_push (relocates_ofExcept_same place (op.apply v)) p
  | step op place =>
    refine hgo (Pending.relocates_popPlace_bind fun target p => ?_)
    exact Pending.relocates_push (relocates_stepPlace op place target) p
  | load place =>
    refine hgo (Pending.relocates_popPlace_bind fun target p => ?_)
    exact Pending.relocates_push (relocates_load place target) p
  | requirePointer place =>
    refine hgo (Pending.relocates_pop_bind fun v p => ?_)
    refine (relocates_pointerPlace place v).after fun target => ?_
    exact .pure (p.push (.pointer target))
  | index place =>
    refine hgo (Pending.relocates_pop_bind fun v p => ?_)
    refine Pending.relocates_pop_bind fun array p => ?_
    exact (relocates_elementPlace place array v).after fun target => .pure (p.push (.pointer target))
  | assign place =>
    refine hgo (Pending.relocates_pop_bind fun v p => ?_)
    refine Pending.relocates_popPlace_bind fun target p => ?_
    exact Pending.relocates_push (relocates_assign place target v) p
  | compoundAssign op place =>
    exact hgo (Pending.relocates_pop_bind fun v p => Pending.relocates_popPlace_bind fun target p =>
      Pending.relocates_push (relocates_compoundAssign op place target v) p)
  | arrayLiteral count place =>
    refine hgo ((Pending.relocates_popMany place p count).bind fun ⟨values, p⟩ => ?_)
    rw [relocate_pair, relocate_eq_self values]
    exact Pending.relocates_push (Effect.relocates_arrayLiteral hσ place values) p
  | declare d asValue => exact hgo (Pending.relocates_declare hσ d asValue p)
  | call f place => exact relocates_call i f place p bases
  | print place =>
    refine hgo (Pending.relocates_pop_bind fun length p => ?_)
    refine Pending.relocates_pop_bind fun start p => ?_
    exact Pending.relocates_push (relocates_print place start length) p
  | branch thenBranch elseBranch place =>
    refine hgo (Pending.relocates_pop_bind fun condition p => ?_)
    dsimp only
    split
    · exact Pending.relocates_schedule p _ rfl
    · cases elseBranch <;> exact Pending.relocates_schedule p _ rfl
  | whileTest condition body place =>
    refine hgo (Pending.relocates_pop_bind fun v p => ?_)
    dsimp only
    split
    · exact Pending.relocates_schedule p _ rfl
    · exact .pure p
  | forCondition loop =>
    obtain ⟨place, condition, increment, body⟩ := loop
    cases condition <;> exact hgo (Pending.relocates_schedule p _ rfl)
  | forTest loop =>
    refine hgo (Pending.relocates_pop_bind fun v p => ?_)
    dsimp only
    split
    · exact Pending.relocates_schedule p _ rfl
    · exact .pure p
  | forNext loop =>
    obtain ⟨place, condition, increment, body⟩ := loop
    cases increment <;> exact hgo (Pending.relocates_schedule p _ rfl)
  | continueTarget | loopEnd => exact hgo (.pure p)
  | giveBack hasValue place =>
    cases hasValue with
    | false => exact relocates_giveBack none place p bases
    | true =>
      exact (Pending.relocates_pop place p).bind fun ⟨v, p⟩ =>
        relocates_giveBack (some v) place p bases
  | bodyEnd place => exact relocates_giveBack none place p bases

theorem relocates_step (hσ : Function.Injective σ) (m : Machine) :
    Relocates σ (i.step m) ((relocate σ i).step (relocate σ m)) := by
  have htop : (relocate σ m).pending.jobs.top? = m.pending.jobs.top?.map (relocate σ) :=
    Stack.top?_map _ m.pending.jobs
  have hpop : (relocate σ m).pending.jobs.pop = relocate σ m.pending.jobs.pop :=
    Stack.pop_map _ m.pending.jobs
  unfold Interpreter.step
  rw [htop, hpop]
  cases m.pending.jobs.top? with
  | some job => exact relocates_perform i hσ job ⟨m.pending.jobs.pop, m.pending.operands⟩ m.bases
  | none => exact .pure (Progress.exited 0)

/-! ## Runs -/

theorem next_relocate (hσ : Function.Injective σ) (r : Run) :
    (relocate σ i).next (relocate σ r) = relocate σ (i.next r) := by
  cases r with
  | ended result s => rfl
  | underWay m s =>
    show Run.ofStep (((relocate σ i).step (relocate σ m)).run (relocate σ s)) = _
    rw [relocates_step i hσ m s]
    show _ = relocate σ (Run.ofStep ((i.step m).run s))
    rcases (i.step m).run s with ⟨e | progress, t⟩
    · rfl
    · cases progress <;> rfl

theorem advance_relocate (hσ : Function.Injective σ) (fuel : Nat) (r : Run) :
    (relocate σ i).advance fuel (relocate σ r) = relocate σ (i.advance fuel r) := by
  induction fuel generalizing r with
  | zero => rfl
  | succ fuel ih => rw [advance_succ, advance_succ, next_relocate i hσ, ih]

theorem begin_relocate (args : List (List UInt8)) (sink : Sink) :
    (relocate σ i).begin args sink = relocate σ (i.begin args sink) := by
  unfold begin
  have hfresh : ProgramState.fresh sink = relocate σ (ProgramState.fresh sink) := rfl
  rw [hfresh, relocates_enterMain i args, ← hfresh]
  rcases (i.enterMain args).run (.fresh sink) with ⟨e | main, s⟩
  · rfl
  · show Run.underWay (.enter (relocate σ main) (relocate σ Pending.empty) []) (relocate σ s) =
      .underWay (relocate σ (.enter main .empty [])) (relocate σ s)
    rw [enter_relocate]

/-- A program at other places ends as it does, with an error at its new place, and leaves the same
state but for the places in it. -/
theorem run_relocate (hσ : Function.Injective σ) (fuel : Nat) (args : List (List UInt8))
    (sink : Sink) : (relocate σ i).run fuel args sink = relocate σ (i.run fuel args sink) := by
  unfold run
  rw [begin_relocate, advance_relocate i hσ]
  cases i.advance fuel (i.begin args sink) <;> rfl

end Interpreter

end BoundedC
