import BoundedC.Proofs.Offsets
import BoundedC.Proofs.StackDiscipline

/-!
# Operands are storable

Throughout a run every pointer among the operands has an offset that a stored pointer can hold, be it
the place of a variable, part of an array, an argument of the program or eight bytes that were written as
integers. So no pointer is refused where it is stored, passed or given back. An offset out of range is
found by pointer arithmetic only, in the jobs that move or subtract their operands.

* `Job.Overflows` : a job whose operands lead out of range;
* `Pending.IsStorable` : all operands can be stored;
* `Interpreter.answers_perform` : what a job does to the operands;
* `operands_storable` : operands and failures throughout a run.
-/

namespace BoundedC

namespace Effect

variable {E : Int → Prop} {s : ProgramState}

/-! ## Operations -/

theorem fits_binding (b : Binding) : fitsOffset b.pointer.offset = true := fitsOffset_zero

theorem answers_variablePlace (place : Location) (name : String) (access : Access) :
    Answers E (fun p => fitsOffset p.offset = true) (variablePlace place name access) s :=
  answers_bind (answers_lookup place name) fun b _ _ =>
    answers_guard place _ nofun (answers_pure (fits_binding b))

theorem answers_variableValue (place : Location) (name : String) :
    Answers E Value.IsStorable (variableValue place name) s :=
  answers_bind (answers_lookup place name) fun b _ _ => answers_load place (fits_binding b)

theorem answers_pointerPlace (place : Location) {v : Value} (hv : v.IsStorable) :
    Answers E (fun p => fitsOffset p.offset = true) (pointerPlace place v) s := by
  cases v with
  | pointer p => exact answers_pure (hv p rfl)
  | _ => exact answers_mismatch ..

theorem answers_elementPlace (place : Location) (array index : Value) :
    Answers (fun offset => BinaryOp.Overflows offset .add array index)
      (fun p => fitsOffset p.offset = true) (elementPlace place array index) s :=
  answers_ofExcept place (fun _ => Value.fits_of_element) fun _ => Value.overflows_of_element

theorem answers_binary (op : BinaryOp) (place : Location) (l r : Value) :
    Answers (fun offset => op.Overflows offset l r) Value.IsStorable (ofExcept place (op.apply l r)) s :=
  answers_ofExcept place (fun _ => BinaryOp.isStorable_of_apply) fun _ => BinaryOp.overflows_of_apply

theorem answers_unary (op : UnaryOp) (place : Location) (v : Value) :
    Answers E Value.IsStorable (ofExcept place (op.apply v)) s :=
  answers_ofExcept place (fun _ => UnaryOp.isStorable_of_apply) fun _ h =>
    absurd h UnaryOp.apply_ne_memory

theorem answers_assign (place : Location) (target : Pointer) {v : Value} (hv : v.IsStorable) :
    Answers E Value.IsStorable (assign place target v) s := by
  unfold assign
  split
  · exact answers_mismatch ..
  · exact answers_store place target hv

/-- A compound assignment combines what it finds at the place with its operand. -/
theorem answers_compoundAssign (op : BinaryOp) (place : Location) (target : Pointer) (v : Value) :
    Answers (fun offset => ∃ old, s.memory.load target = .ok old ∧ op.Overflows offset old v)
      Value.IsStorable (compoundAssign op place target v) s := by
  refine answers_readMemory_bind place (s.memory.staysInRange_load target) fun old hold => ?_
  have hoverflows (offset : Int) (h : op.Overflows offset old v) :
      ∃ old, s.memory.load target = .ok old ∧ op.Overflows offset old v := ⟨old, hold, h⟩
  exact answers_bind ((answers_binary op place old v).mono hoverflows fun _ h => h)
    fun _ _ hv => answers_assign place target hv

/-- A step moves the pointer that it finds at the place. -/
theorem answers_step (op : StepOp) (place : Location) {target : Pointer}
    (htarget : fitsOffset target.offset = true) :
    Answers (fun offset => ∃ p, s.memory.load target = .ok (.pointer p) ∧
        p.add op.delta = .error (.offsetOverflow offset))
      Value.IsStorable (step op place target) s := by
  refine answers_readMemory_bind place (s.memory.staysInRange_load target) fun old hold => ?_
  have holdStorable := Arena.isStorable_of_load htarget hold
  refine answers_bind (P := Value.IsStorable) (answers_ofExcept place
    (fun _ => StepOp.isStorable_of_apply) fun offset h => ?_) fun new _ hnew => ?_
  · obtain ⟨p, rfl, hadd⟩ := StepOp.add_of_apply h
    exact ⟨p, hold, hadd⟩
  · refine answers_bind (answers_store place target hnew) fun stored _ hstored => answers_pure ?_
    split
    · exact holdStorable
    · exact hstored

theorem answers_print (place : Location) (start length : Value) :
    Answers E Value.IsStorable (print place start length) s := by
  unfold print
  split
  · exact answers_mismatch ..
  · exact answers_mismatch ..
  · refine answers_guard place _ nofun ?_
    exact answers_readMemory_bind place (Arena.staysInRange_read ..) fun _ _ =>
      answers_bind (answers_write ..) fun _ _ _ => answers_pure (Value.isStorable_int 0)

/-! ## Literals and declarations -/

theorem answers_literalStorage (site : Location) (length : Nat) :
    Answers E (fun _ => True) (literalStorage site length) s := by
  have hfresh (s : ProgramState) : Answers E (fun _ => True) (literalStorage.fresh site length) s :=
    answers_bind (answers_allocate ..) fun _ _ _ => answers_bind (answers_modifyCurrent ..) fun _ _ _ =>
      answers_pure trivial
  refine answers_bind (answers_current site) fun a _ _ => ?_
  dsimp only
  split
  · refine answers_bind answers_get fun _ _ _ => ?_
    split
    · exact answers_pure trivial
    · exact hfresh _
  · exact hfresh _

theorem answers_stringLiteral (site : Location) (bytes : List UInt8) :
    Answers E Value.IsStorable (stringLiteral site bytes) s :=
  answers_bind (answers_literalStorage ..) fun _ _ _ =>
    answers_bind (answers_onMemory site (fun _ _ _ => trivial) (Arena.staysInRange_write ..))
      fun _ _ _ => answers_pure (Value.isStorable_pointer fitsOffset_zero)

theorem answers_filledLiteral (site : Location) (element : CType) {values : List Value}
    (h : ∀ v ∈ values, v.IsStorable) :
    Answers E (fun _ => True) (filledLiteral site element values) s :=
  answers_bind (answers_literalStorage ..) fun _ _ _ =>
    answers_bind (answers_storeSlots site _ element fun _ hpair =>
      h _ (List.fst_mem_of_mem_zipIdx hpair)) fun _ _ _ => answers_pure trivial

theorem answers_arrayLiteral (site : Location) {values : List Value}
    (h : ∀ v ∈ values, v.IsStorable) : Answers E Value.IsStorable (arrayLiteral site values) s :=
  answers_bind (answers_filledLiteral site _ h) fun _ _ _ =>
    answers_pure (Value.isStorable_pointer fitsOffset_zero)

theorem answers_fill (d : Declaration) (b : Binding) {values : List Value}
    (h : ∀ v ∈ values, v.IsStorable) : Answers E (fun _ => True) (d.fill b values) s := by
  unfold Declaration.fill
  dsimp only
  split
  · exact answers_pure trivial
  · split
    · exact answers_onMemory _ (fun _ _ _ => trivial) (Arena.staysInRange_write ..)
    · exact answers_mismatch ..
  · split
    · exact answers_storeSlots _ _ _ fun _ hpair => h _ (List.of_mem_zip hpair).1
    · exact answers_mismatch ..
    · exact answers_breakOff
  · exact answers_mismatch ..
  · split
    · exact answers_mismatch ..
    · exact answers_bind (answers_filledLiteral _ _ h) fun _ _ _ =>
        answers_discard (answers_store _ _ (Value.isStorable_pointer fitsOffset_zero))
  · split
    · exact answers_discard (answers_store _ _ (h _ List.mem_cons_self))
    · exact answers_failInternal ..

theorem answers_define (d : Declaration) {values : List Value} (h : ∀ v ∈ values, v.IsStorable) :
    Answers E (fun _ => True) (d.define values) s :=
  answers_guard d.place _ nofun (answers_bind (answers_allocate ..) fun _ _ _ =>
    answers_bind (answers_modifyCurrent ..) fun _ _ _ => answers_bind (answers_fill d _ h) fun _ _ _ =>
      answers_pure trivial)

/-! ## Calls -/

theorem answers_bindParams (place : Location) (a : Activation) {params : List (Param × Value)}
    (h : ∀ param ∈ params, param.2.IsStorable) :
    Answers E (fun _ => True) (bindParams place a params) s := by
  induction params generalizing a s with
  | nil => exact answers_pure trivial
  | cons param rest ih =>
    obtain ⟨hparam, hrest⟩ := List.forall_mem_cons.1 h
    exact answers_bind (answers_allocate ..) fun _ _ _ =>
      answers_bind (answers_discard (answers_store place _ hparam)) fun _ _ _ => ih _ hrest

theorem answers_enterCall (limits : Limits) (f : Function) {args : List Value}
    (h : ∀ v ∈ args, v.IsStorable) (callSite : Option Location) :
    Answers E (fun _ => True) (enterCall limits f args callSite) s := by
  refine answers_bind answers_get fun _ _ _ => answers_guard _ _ nofun ?_
  exact answers_bind (answers_bindParams _ _ fun _ hparam => h _ (List.of_mem_zip hparam).2)
    fun _ _ _ => answers_modify _

theorem answers_callResult (place : Location) (returnType : CType) {value : Option Value}
    (h : ∀ v ∈ value, v.IsStorable) : Answers E Value.IsStorable (callResult place returnType value) s := by
  cases value with
  | none => exact answers_pure (Value.isStorable_int 0)
  | some v =>
    unfold callResult
    dsimp only
    split
    · exact answers_pure (Value.isStorable_int 0)
    · exact answers_readMemory place (v.staysInRange_convert returnType) fun _ => (h v rfl).convert

theorem answers_leaveCall (place : Location) {value : Option Value} (h : ∀ v ∈ value, v.IsStorable) :
    Answers E Value.IsStorable (leaveCall place value) s := by
  have hpop : Answers E (fun _ => True) (popCall place) s :=
    answers_bind (answers_current place) fun _ _ _ => answers_bind (answers_modify _) fun _ _ _ =>
      answers_pure trivial
  exact answers_bind hpop fun a _ _ => answers_bind (answers_callResult place a.returnType h)
    fun _ _ hv => answers_bind (answers_modify _) fun _ _ _ => answers_pure hv

theorem answers_exitValue (place : Location) (result : Value) :
    Answers E (fun _ => True) (exitValue place result) s := by
  unfold exitValue
  split
  · exact answers_pure trivial
  · exact answers_mismatch ..

theorem answers_bindArgumentsFrom (place : Location) (table : BufferId) (slot : Nat)
    (args : List (List UInt8)) :
    Answers E (fun _ => True) (bindArgumentsFrom place table slot args) s := by
  induction args generalizing slot s with
  | nil => exact answers_pure trivial
  | cons arg rest ih =>
    have hallocate : Answers E (fun _ => True) (allocateWith place (arg ++ [0]) .argument) s :=
      answers_onMemory place (fun _ _ _ => trivial) (Arena.staysInRange_allocateWith ..)
    refine answers_bind hallocate fun id _ _ =>
      answers_bind (answers_storeSlots place table _ fun pair hpair => ?_) fun _ _ _ => ih _
    rw [List.mem_singleton.1 hpair]
    exact Value.isStorable_pointer fitsOffset_zero

/-- The arguments of `main` are a number and a pointer to the beginning of a table. -/
theorem answers_bindArguments (place : Location) (args : List (List UInt8)) :
    Answers E (fun values => ∀ v ∈ values, v.IsStorable) (bindArguments place args) s := by
  refine answers_bind (answers_allocate ..) fun table _ _ =>
    answers_bind (answers_bindArgumentsFrom ..) fun _ _ _ => answers_guard place _ nofun (answers_pure ?_)
  simp only [List.forall_mem_cons]
  exact ⟨Value.isStorable_int _, Value.isStorable_pointer fitsOffset_zero, nofun⟩

end Effect

/-! ## Jobs -/

/-- A job moves or subtracts its operands, the latest of which comes first, and the result is out of
range. -/
inductive Job.Overflows (memory : Arena) (offset : Int) : Job → List Value → Prop
  | binary {op : BinaryOp} {place : Location} {left right : Value} {rest : List Value}
    (h : op.Overflows offset left right) : Overflows memory offset (.binary op place) (right :: left :: rest)
  | index {place : Location} {array index : Value} {rest : List Value}
    (h : BinaryOp.Overflows offset .add array index) :
    Overflows memory offset (.index place) (index :: array :: rest)
  | compoundAssign {op : BinaryOp} {place : Location} {target : Pointer} {old v : Value}
    {rest : List Value} (hold : memory.load target = .ok old) (h : op.Overflows offset old v) :
    Overflows memory offset (.compoundAssign op place) (v :: .pointer target :: rest)
  | step {op : StepOp} {place : Location} {target p : Pointer} {rest : List Value}
    (hp : memory.load target = .ok (.pointer p)) (h : p.add op.delta = .error (.offsetOverflow offset)) :
    Overflows memory offset (.step op place) (.pointer target :: rest)

def Pending.IsStorable (p : Pending) : Prop := ∀ v ∈ p.operands.items, v.IsStorable

namespace Pending

open Effect

variable {α : Type} {E : Int → Prop} {P : α → Prop} {s : ProgramState} {p : Pending}

theorem isStorable_empty : empty.IsStorable := nofun

theorem IsStorable.schedule (hp : p.IsStorable) (jobs : List Job) : (p.schedule jobs).IsStorable := hp

theorem IsStorable.push (hp : p.IsStorable) {v : Value} (hv : v.IsStorable) : (p.push v).IsStorable :=
  List.forall_mem_cons.2 ⟨hv, hp⟩

theorem IsStorable.cutTo (hp : p.IsStorable) (h : Heights) : (p.cutTo h).IsStorable :=
  fun v hv => hp v (List.mem_of_mem_drop hv)

/-- The latest operand is taken off, and the state is left alone. -/
theorem answers_pop_bind (hp : p.IsStorable) (place : Location) {f : Value × Pending → Effect α}
    (hf : ∀ v q, p.operands.items = v :: q.operands.items → v.IsStorable → q.IsStorable →
      Answers E P (f (v, q)) s) : Answers E P (p.pop place >>= f) s := by
  unfold pop
  cases hitems : p.operands.items with
  | nil =>
    rw [Stack.top?, hitems, List.head?_nil]
    exact answers_bind (P := fun _ => False) (answers_failInternal ..) fun _ _ => False.elim
  | cons v rest =>
    rw [Stack.top?, hitems, List.head?_cons]
    have hall : ∀ w ∈ v :: rest, w.IsStorable := hitems ▸ hp
    have hrest : p.operands.pop.items = rest := by rw [Stack.items_pop, hitems, List.tail_cons]
    have hanswers := hf v ⟨p.jobs, p.operands.pop⟩ (by rw [hitems, hrest]) (hall v List.mem_cons_self)
      fun w hw => hall w (List.mem_cons_of_mem v (hrest ▸ hw))
    exact hanswers

theorem answers_popPlace_bind (hp : p.IsStorable) (place : Location) {f : Pointer × Pending → Effect α}
    (hf : ∀ target q, p.operands.items = .pointer target :: q.operands.items →
      fitsOffset target.offset = true → q.IsStorable → Answers E P (f (target, q)) s) :
    Answers E P (p.popPlace place >>= f) s := by
  unfold popPlace
  rw [bind_assoc]
  refine answers_pop_bind hp place fun v q hitems hv hq => ?_
  cases v with
  | pointer target => exact hf target q hitems (hv target rfl) hq
  | _ => exact answers_bind (P := fun _ => False) (answers_failInternal ..) fun _ _ => False.elim

theorem answers_popMany (hp : p.IsStorable) (place : Location) (count : Nat) :
    Answers E (fun r => (∀ v ∈ r.1, v.IsStorable) ∧ r.2.IsStorable) (p.popMany place count) s := by
  unfold popMany
  split
  · exact answers_pure ⟨fun v hv => hp v (List.mem_of_mem_take (List.mem_reverse.1 hv)),
      fun v hv => hp v (List.mem_of_mem_drop hv)⟩
  · exact answers_failInternal ..

/-- The result of an effect becomes the latest operand. -/
theorem answers_push (hp : p.IsStorable) {x : Effect Value} (hx : Answers E Value.IsStorable x s) :
    Answers E IsStorable (do return p.push (← x)) s :=
  answers_bind hx fun _ _ hv => answers_pure (hp.push hv)

/-- A place that was found becomes the latest operand. -/
theorem answers_pushPlace (hp : p.IsStorable) {x : Effect Pointer}
    (hx : Answers E (fun q => fitsOffset q.offset = true) x s) :
    Answers E IsStorable (do return p.push (.pointer (← x))) s :=
  answers_bind hx fun _ _ hq => answers_pure (hp.push (Value.isStorable_pointer hq))

theorem answers_unwind (place : Location) (isTarget : Job → Bool) (rest : List Job) (jobs : Stack Job) :
    Answers E (fun _ => True) (unwind place isTarget rest jobs) s := by
  induction rest generalizing jobs s with
  | nil => exact answers_failInternal ..
  | cons job rest ih =>
    cases job with
    | bodyEnd => exact answers_failInternal ..
    | closeScope => exact answers_bind (answers_closeScope _) fun _ _ _ => ih _
    | _ =>
      unfold unwind
      split
      · exact answers_pure trivial
      · exact ih _

theorem answers_unwindTo (hp : p.IsStorable) (place : Location) (isTarget : Job → Bool) :
    Answers E IsStorable (p.unwindTo place isTarget) s :=
  answers_bind (answers_unwind ..) fun _ _ _ => answers_pure hp

theorem isStorable_forCondition (hp : p.IsStorable) (loop : ForLoop) :
    (p.forCondition loop).IsStorable := by
  unfold forCondition
  split
  · exact hp.schedule _
  · exact hp.schedule _

theorem isStorable_forNext (hp : p.IsStorable) (loop : ForLoop) : (p.forNext loop).IsStorable := by
  unfold forNext
  split
  · exact hp.schedule _
  · exact hp.schedule _

/-! ### Jobs that take operands -/

theorem answers_discard (hp : p.IsStorable) (place : Location) : Answers E IsStorable (p.discard place) s :=
  answers_pop_bind hp place fun _ _ _ _ hq => answers_pure hq

theorem answers_binary (hp : p.IsStorable) (op : BinaryOp) (place : Location) :
    Answers (fun offset => Job.Overflows s.memory offset (.binary op place) p.operands.items) IsStorable
      (p.binary op place) s := by
  refine answers_pop_bind hp place fun right q hright _ hq =>
    answers_pop_bind hq place fun left q' hleft _ hq' => answers_push hq' ?_
  rw [hright, hleft]
  exact (Effect.answers_binary op place left right).mono (fun _ => .binary) fun _ h => h

theorem answers_logical (hp : p.IsStorable) (op : BinaryOp) (right : Node) (place : Location) :
    Answers E IsStorable (p.logical op right place) s := by
  refine answers_pop_bind hp place fun left q _ _ hq => ?_
  dsimp only
  split
  · exact answers_pure (hq.push (BinaryOp.isStorable_ofBool _))
  · exact answers_pure (hq.schedule _)

theorem answers_truth (hp : p.IsStorable) (place : Location) : Answers E IsStorable (p.truth place) s :=
  answers_pop_bind hp place fun _ _ _ _ hq => answers_pure (hq.push (BinaryOp.isStorable_ofBool _))

theorem answers_unary (hp : p.IsStorable) (op : UnaryOp) (place : Location) :
    Answers E IsStorable (p.unary op place) s :=
  answers_pop_bind hp place fun v _ _ _ hq => answers_push hq (Effect.answers_unary op place v)

theorem answers_arrayLiteral (hp : p.IsStorable) (count : Nat) (place : Location) :
    Answers E IsStorable (p.arrayLiteral count place) s :=
  answers_bind (answers_popMany hp place count) fun _ _ h =>
    answers_push h.2 (Effect.answers_arrayLiteral place h.1)

theorem answers_print (hp : p.IsStorable) (place : Location) : Answers E IsStorable (p.print place) s :=
  answers_pop_bind hp place fun length _ _ _ hq => answers_pop_bind hq place fun start _ _ _ hq' =>
    answers_push hq' (Effect.answers_print place start length)

theorem answers_load (hp : p.IsStorable) (place : Location) : Answers E IsStorable (p.load place) s :=
  answers_popPlace_bind hp place fun _ _ _ htarget hq =>
    answers_push hq (Effect.answers_load place htarget)

theorem answers_requirePointer (hp : p.IsStorable) (place : Location) :
    Answers E IsStorable (p.requirePointer place) s :=
  answers_pop_bind hp place fun _ _ _ hv hq => answers_pushPlace hq (answers_pointerPlace place hv)

theorem answers_index (hp : p.IsStorable) (place : Location) :
    Answers (fun offset => Job.Overflows s.memory offset (.index place) p.operands.items) IsStorable
      (p.index place) s := by
  refine answers_pop_bind hp place fun index q hindex _ hq =>
    answers_pop_bind hq place fun array q' harray _ hq' => answers_pushPlace hq' ?_
  rw [hindex, harray]
  exact (answers_elementPlace place array index).mono (fun _ => .index) fun _ h => h

theorem answers_assign (hp : p.IsStorable) (place : Location) : Answers E IsStorable (p.assign place) s :=
  answers_pop_bind hp place fun _ _ _ hv hq => answers_popPlace_bind hq place fun target _ _ _ hq' =>
    answers_push hq' (Effect.answers_assign place target hv)

theorem answers_compoundAssign (hp : p.IsStorable) (op : BinaryOp) (place : Location) :
    Answers (fun offset => Job.Overflows s.memory offset (.compoundAssign op place) p.operands.items)
      IsStorable (p.compoundAssign op place) s := by
  refine answers_pop_bind hp place fun v q hv _ hq =>
    answers_popPlace_bind hq place fun target q' htarget _ hq' => answers_push hq' ?_
  rw [hv, htarget]
  exact (Effect.answers_compoundAssign op place target v).mono
    (fun _ ⟨_, hold, h⟩ => .compoundAssign hold h) fun _ h => h

theorem answers_step (hp : p.IsStorable) (op : StepOp) (place : Location) :
    Answers (fun offset => Job.Overflows s.memory offset (.step op place) p.operands.items) IsStorable
      (p.step op place) s := by
  refine answers_popPlace_bind hp place fun target q htarget hfits hq => answers_push hq ?_
  rw [htarget]
  exact (Effect.answers_step op place hfits).mono (fun _ ⟨_, hp, h⟩ => .step hp h) fun _ h => h

theorem answers_declare (hp : p.IsStorable) (d : Declaration) (asValue : Bool) :
    Answers E IsStorable (p.declare d asValue) s := by
  refine answers_bind (answers_popMany hp d.place d.operands.length) fun _ _ h =>
    answers_bind (answers_define d h.1) fun b _ _ => ?_
  split
  · exact answers_push h.2 (Effect.answers_load d.place (fits_binding b))
  · exact answers_pure h.2

theorem answers_branch (hp : p.IsStorable) (thenBranch : Node) (elseBranch : Option Node)
    (place : Location) : Answers E IsStorable (p.branch thenBranch elseBranch place) s := by
  refine answers_pop_bind hp place fun _ _ _ _ hq => ?_
  dsimp only
  split
  · exact answers_pure (hq.schedule _)
  · exact answers_pure (hq.schedule _)

theorem answers_whileTest (hp : p.IsStorable) (condition body : Node) (place : Location) :
    Answers E IsStorable (p.whileTest condition body place) s := by
  refine answers_pop_bind hp place fun _ _ _ _ hq => ?_
  dsimp only
  split
  · exact answers_pure (hq.schedule _)
  · exact answers_pure hq

theorem answers_forTest (hp : p.IsStorable) (loop : ForLoop) : Answers E IsStorable (p.forTest loop) s := by
  refine answers_pop_bind hp loop.place fun _ _ _ _ hq => ?_
  dsimp only
  split
  · exact answers_pure (hq.schedule _)
  · exact answers_pure hq

end Pending

def Progress.IsStorable (r : Progress) : Prop := ∀ m, r = .running m → m.pending.IsStorable

theorem Progress.isStorable_running {m : Machine} (h : m.pending.IsStorable) :
    (running m).IsStorable := by
  rintro _ ⟨⟩
  exact h

namespace Interpreter

open Effect

variable {E : Int → Prop} {s : ProgramState} {p : Pending}

/-! ### Jobs that take a node apart -/

theorem answers_execute (i : Interpreter) (node : Node) (hp : p.IsStorable) :
    Answers E Pending.IsStorable (i.execute node p) s := by
  refine answers_bind (answers_countStep ..) fun _ t _ => ?_
  have hscope (place : Location) (jobs : List Job) :
      Answers E Pending.IsStorable (do openScope place; return p.schedule jobs) t :=
    answers_bind (answers_modifyCurrent ..) fun _ _ _ => answers_pure (hp.schedule jobs)
  cases node with
  | block place statements => exact hscope ..
  | forLoop place init condition increment body => exact hscope ..
  | breakLoop place => exact Pending.answers_unwindTo hp ..
  | continueLoop place => exact Pending.answers_unwindTo hp ..
  | function => exact answers_failInternal ..
  | _ => exact answers_pure (hp.schedule _)

theorem answers_evaluate (i : Interpreter) (node : Node) (hp : p.IsStorable) :
    Answers E Pending.IsStorable (i.evaluate node p) s := by
  cases node with
  | intLiteral => exact answers_pure (hp.push (Value.isStorable_int _))
  | charLiteral => exact answers_pure (hp.push (Value.isStorable_char _))
  | stringLiteral place bytes => exact Pending.answers_push hp (answers_stringLiteral ..)
  | identifier place name => exact Pending.answers_push hp (answers_variableValue ..)
  | binary place op left right =>
    unfold evaluate
    dsimp only
    split
    · exact answers_pure (hp.schedule _)
    · exact answers_pure (hp.schedule _)
  | call place name args =>
    refine answers_bind (P := fun _ => True) (answers_ofExcept place (fun _ _ => trivial)
      fun offset h => ?_) fun _ _ _ => answers_pure (hp.schedule _)
    unfold callee at h
    split at h
    · split at h <;> cases h
    · split at h
      · split at h <;> cases h
      · cases h
  | block | ifElse | whileLoop | forLoop | returnFrom | breakLoop | continueLoop | expression | function =>
    exact answers_failInternal ..
  | _ => exact answers_pure (hp.schedule _)

theorem answers_locate (node : Node) (access : Access) (hp : p.IsStorable) :
    Answers E Pending.IsStorable (locate node access p) s := by
  cases node with
  | identifier place name => exact Pending.answers_pushPlace hp (answers_variablePlace ..)
  | deref | index => exact answers_pure (hp.schedule _)
  | _ => exact answers_mismatch ..

/-! ### All jobs -/

theorem answers_running {next : Effect Pending} (bases : List Heights)
    (h : Answers E Pending.IsStorable next s) :
    Answers E Progress.IsStorable (do return .running ⟨← next, bases⟩) s :=
  answers_bind h fun _ _ hq => answers_pure (Progress.isStorable_running hq)

theorem answers_call (i : Interpreter) (f : Function) (place : Location) (bases : List Heights)
    (hp : p.IsStorable) : Answers E Progress.IsStorable (i.call f place p bases) s :=
  answers_bind (Pending.answers_popMany hp place f.params.length) fun _ _ h =>
    answers_bind (answers_enterCall i.limits f h.1 (some place)) fun _ _ _ =>
      answers_pure (Progress.isStorable_running (h.2.schedule _))

theorem answers_giveBack {value : Option Value} (hvalue : ∀ v ∈ value, v.IsStorable) (place : Location)
    (bases : List Heights) (hp : p.IsStorable) :
    Answers E Progress.IsStorable (giveBack value place p bases) s := by
  refine answers_bind (answers_leaveCall place hvalue) fun v _ hv => ?_
  unfold resume
  split
  · exact answers_pure (Progress.isStorable_running ((hp.cutTo _).push hv))
  · exact answers_bind (answers_exitValue place v) fun _ _ _ => answers_pure nofun

/-- A job leaves operands that can be stored, and finds an offset out of range only where it moves or
subtracts its operands. -/
theorem answers_perform (i : Interpreter) (job : Job) (bases : List Heights) (hp : p.IsStorable) :
    Answers (fun offset => job.Overflows s.memory offset p.operands.items) Progress.IsStorable
      (i.perform job p bases) s := by
  have hnone : ∀ v ∈ (none : Option Value), v.IsStorable := fun v hv => absurd hv (Option.not_mem_none v)
  cases job with
  | execute node => exact answers_running bases (answers_execute i node hp)
  | evaluate node => exact answers_running bases (answers_evaluate i node hp)
  | locate node access => exact answers_running bases (answers_locate node access hp)
  | discard place => exact answers_running bases (Pending.answers_discard hp place)
  | closeScope place =>
    exact answers_running bases (answers_bind (answers_closeScope place) fun _ _ _ => answers_pure hp)
  | binary op place => exact answers_running bases (Pending.answers_binary hp op place)
  | logical op right place => exact answers_running bases (Pending.answers_logical hp op right place)
  | truth place => exact answers_running bases (Pending.answers_truth hp place)
  | unary op place => exact answers_running bases (Pending.answers_unary hp op place)
  | step op place => exact answers_running bases (Pending.answers_step hp op place)
  | load place => exact answers_running bases (Pending.answers_load hp place)
  | requirePointer place => exact answers_running bases (Pending.answers_requirePointer hp place)
  | index place => exact answers_running bases (Pending.answers_index hp place)
  | assign place => exact answers_running bases (Pending.answers_assign hp place)
  | compoundAssign op place => exact answers_running bases (Pending.answers_compoundAssign hp op place)
  | arrayLiteral count place => exact answers_running bases (Pending.answers_arrayLiteral hp count place)
  | declare d asValue => exact answers_running bases (Pending.answers_declare hp d asValue)
  | call f place => exact answers_call i f place bases hp
  | print place => exact answers_running bases (Pending.answers_print hp place)
  | branch thenBranch elseBranch place =>
    exact answers_running bases (Pending.answers_branch hp thenBranch elseBranch place)
  | whileTest condition body place =>
    exact answers_running bases (Pending.answers_whileTest hp condition body place)
  | forCondition loop =>
    exact answers_running bases (answers_pure (Pending.isStorable_forCondition hp loop))
  | forTest loop => exact answers_running bases (Pending.answers_forTest hp loop)
  | forNext loop => exact answers_running bases (answers_pure (Pending.isStorable_forNext hp loop))
  | continueTarget | loopEnd => exact answers_running bases (answers_pure hp)
  | giveBack hasValue place =>
    cases hasValue with
    | false => exact answers_giveBack hnone place bases hp
    | true =>
      refine Pending.answers_pop_bind hp place fun v _ _ hv hq => answers_giveBack ?_ place bases hq
      rintro _ ⟨⟩
      exact hv
  | bodyEnd place => exact answers_giveBack hnone place bases hp

theorem answers_enterMain (i : Interpreter) (args : List (List UInt8)) :
    Answers E (fun _ => True) (i.enterMain args) s := by
  refine ⟨fun _ _ _ => trivial, ?_⟩
  unfold enterMain
  split
  · rintro _ _ _ ⟨⟩
  · refine Answers.error (P := fun _ => True) (answers_guard _ _ ?_ ?_)
    · nofun
    exact answers_bind (answers_bindArguments ..) fun values _ hvalues =>
      answers_bind (answers_enterCall _ _ (fun v hv => hvalues v (List.mem_of_mem_take hv)) none)
        fun _ _ _ => answers_pure trivial

end Interpreter

/-! ## Throughout a run -/

open Effect Interpreter

variable {i : Interpreter} {m : Machine} {s : ProgramState}

/-- What the next job does to operands that can be stored. -/
theorem answers_machineStep (hm : m.pending.IsStorable) :
    Answers (fun offset => ∃ job ∈ m.pending.jobs.top?,
        job.Overflows s.memory offset m.pending.operands.items)
      Progress.IsStorable (i.step m) s := by
  unfold Interpreter.step
  split
  · rename_i job hjob
    exact (answers_perform i job m.bases (p := ⟨m.pending.jobs.pop, m.pending.operands⟩) hm).mono
      (fun _ h => ⟨job, hjob, h⟩) fun _ h => h
  · exact answers_pure nofun

theorem isStorable_of_reaches {args : List (List UInt8)} {sink : Sink} (h : i.Reaches args sink m s) :
    m.pending.IsStorable := by
  obtain ⟨fuel, h⟩ := h
  refine invariant_of_advance (P := fun m _ => m.pending.IsStorable) (fun m s hbegin => ?_)
    (fun _ _ m₁ s₁ m₂ s₂ _ _ hstep hm => (answers_machineStep hm).ok _ _ hstep m₂ rfl) h
  unfold Interpreter.begin at hbegin
  split at hbegin
  · cases hbegin
    exact Pending.isStorable_empty.schedule _
  · cases hbegin

/-- In every run, of every program and with any arguments, each pointer among the operands can be stored,
by whatever store; and where a run ends for an offset out of range, its last job moved or subtracted
pointers. -/
theorem operands_storable (i : Interpreter) (args : List (List UInt8)) (sink : Sink) :
    (∀ offset place s,
      i.begin args sink ≠ .ended (.error (.fault (.memory (.offsetOverflow offset)) place)) s) ∧
    ∀ m s, i.Reaches args sink m s →
      (∀ p, .pointer p ∈ m.pending.operands.items → -0x80000000 ≤ p.offset ∧ p.offset < 0x80000000) ∧
      (∀ v ∈ m.pending.operands.items, ∀ (a : Arena) (target : Pointer) (offset : Int),
        (a.store target v).1 ≠ .error (.offsetOverflow offset)) ∧
      ∀ offset place s',
        (i.step m).run s = (.error (.fault (.memory (.offsetOverflow offset)) place), s') →
        ∃ job ∈ m.pending.jobs.top?, job.Overflows s.memory offset m.pending.operands.items := by
  refine ⟨fun offset place s hbegin => ?_, fun m s h => ?_⟩
  · unfold Interpreter.begin at hbegin
    split at hbegin
    · cases hbegin
    · rename_i hrun
      cases hbegin
      exact (answers_enterMain (E := fun _ => False) i args).error offset place s hrun
  · have hm := isStorable_of_reaches h
    refine ⟨fun p hp => of_decide_eq_true (hm _ hp p rfl), fun v hv a target offset => ?_, ?_⟩
    · exact (a.staysInRange_store target (hm v hv)).ne_error offset
    · exact (answers_machineStep hm).error

/-- `int a[2] = {5, 2147483647}; char **p = a; return *p + 1;` reads two integers as a pointer to buffer 5,
and comes to add 1 to the greatest offset there is. -/
def forgedPointer : Program :=
  ⟨[.function .start "main" .int []
    [.declaration .start "a" (.array .int 2) false
      (some (.arrayLiteral .start [.intLiteral .start 5, .intLiteral .start 2147483647])),
    .declaration .start "p" (.pointer (.pointer .char)) false (some (.identifier .start "a")),
    .returnFrom .start (some (.binary .start .add (.deref .start (.identifier .start "p"))
      (.intLiteral .start 1)))]]⟩

def Run.operands : Run → List Value
  | underWay m _ => m.pending.operands.items
  | ended .. => []

theorem Run.result?_ofStep_eq_error {r : Except Stop Progress × ProgramState} {e : Stop}
    (h : (ofStep r).result? = some (.error e)) : r.1 = .error e := by
  obtain ⟨e' | p, s⟩ := r
  · cases h
    rfl
  · cases p with
    | running m => cases h
    | exited code => cases h

theorem exists_operands_storable :
    let i := Interpreter.ofProgram forgedPointer .default
    ∃ m s s' p, i.Reaches [] .unlimited m s ∧
      .pointer p ∈ m.pending.operands.items ∧ p.offset = 2147483647 ∧ p.offset < 0x80000000 ∧
      (i.step m).run s = (.error (.fault (.memory (.offsetOverflow 2147483648)) .start), s') ∧
      ∃ job ∈ m.pending.jobs.top?, job.Overflows s.memory 2147483648 m.pending.operands.items := by
  intro i
  have hoperands : (i.advance 15 (i.begin [] .unlimited)).operands =
      [.int 1, .pointer ⟨⟨5⟩, 2147483647, .char⟩] := by decide +kernel
  have hresult : (i.advance 16 (i.begin [] .unlimited)).result? =
      some (.error (.fault (.memory (.offsetOverflow 2147483648)) .start)) := by decide +kernel
  rw [advance_succ'] at hresult
  cases hrun : i.advance 15 (i.begin [] .unlimited) with
  | ended result s =>
    rw [hrun] at hoperands
    cases hoperands
  | underWay m s =>
    rw [hrun] at hoperands hresult
    obtain ⟨-, hreaches⟩ := operands_storable i [] .unlimited
    obtain ⟨hoffsets, -, hoverflow⟩ := hreaches m s ⟨15, hrun⟩
    have hmem : .pointer ⟨⟨5⟩, 2147483647, .char⟩ ∈ m.pending.operands.items := by
      rw [show m.pending.operands.items = _ from hoperands]
      exact List.mem_cons_of_mem _ List.mem_cons_self
    have hfails : (i.step m).run s =
        (.error (.fault (.memory (.offsetOverflow 2147483648)) .start), ((i.step m).run s).2) :=
      Prod.ext (Run.result?_ofStep_eq_error hresult) rfl
    exact ⟨m, s, _, _, ⟨15, hrun⟩, hmem, rfl, (hoffsets _ hmem).2, hfails, hoverflow _ _ _ hfails⟩

end BoundedC
