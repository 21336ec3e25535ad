import BoundedC.Proofs.Aborts
import BoundedC.Proofs.Metering
import BoundedC.Proofs.Ownership

/-!
# What effects are made of

All effects are put together from a few operations: on the arena, on the stack of calls, on the count
of statements and on the output (`Effect.Composed`). What is true of these and passes from one effect
to the next is true of all effects. Three such facts are proved here.

* `Effect.Composed.calls_eq`, `Effect.Composed.retains` : effects in which no operation on the calls
  occurs leave them alone, and end no buffer;
* `Effect.Composed.of_abort` : runs are broken off by the declarations that `Job.BreaksOff` names only;
* `Effect.Composed.run_behind` : what was written before does not matter, as long as the sink never
  fails;
* `Interpreter.composed_perform`, `composed_enterMain` : all jobs, and the beginning of a run.
-/

namespace BoundedC

/-! ## Buffers that stay -/

namespace Arena

/-- The live buffers of `a` are live in `b`, with the same owners and lengths. -/
def Retains (a b : Arena) : Prop := ∀ id shape, a.shape? id = some shape → b.shape? id = some shape

theorem Retains.refl (a : Arena) : Retains a a := fun _ _ h => h

theorem Retains.trans {a b c : Arena} (h : Retains a b) (h' : Retains b c) : Retains a c :=
  fun id shape hshape => h' id shape (h id shape hshape)

theorem retains_of_shapes {a b : Arena} (h : b.shapes = a.shapes) : Retains a b := by
  intro id shape hshape
  rwa [shape?, h]

theorem Adds.retains {a b : Arena} {id : BufferId} {shape : Owner × Nat} (h : Adds a b id shape) :
    Retains a b := by
  intro other shape' hother
  rw [h.others other, hother]
  rintro rfl
  rw [h.fresh] at hother
  cases hother

theorem retains_allocateWith (a : Arena) (bytes : Array UInt8) (owner : Owner) :
    Retains a (a.allocateWith bytes owner).2 := by
  rcases h : a.allocateWith bytes owner with ⟨fault | id, b⟩
  · unfold allocateWith at h
    dsimp only at h
    split at h
    · cases h
    · cases h
      exact .refl a
  · exact (adds_of_allocateWith h).retains

theorem retains_allocate (a : Arena) (length : Nat) (owner : Owner) :
    Retains a (a.allocate length owner).2 := by
  unfold allocate
  split
  · exact retains_allocateWith a _ owner
  · exact .refl a

theorem retains_write (a : Arena) (id : BufferId) (offset : Int) (bytes : List UInt8) :
    Retains a (a.write id offset bytes).2 := retains_of_shapes (a.shapes_write id offset bytes)

theorem retains_store (a : Arena) (p : Pointer) (v : Value) : Retains a (a.store p v).2 :=
  retains_of_shapes (a.shapes_store p v)

end Arena

namespace Effect

/-- The effect is put together from a few operations. With `false`, none of them changes the calls in
progress or ends a buffer. The run is broken off under the given circumstances at most. -/
inductive Composed (aborts : Prop) : Bool → {α : Type} → Effect α → Prop
  | pure {b : Bool} {α : Type} (a : α) : Composed aborts b (Pure.pure a : Effect α)
  | throw {b : Bool} {α : Type} (e : RuntimeError) :
      Composed aborts b (MonadExcept.throw (Stop.failure e) : Effect α)
  | breakOff {b : Bool} {α : Type} (h : aborts) : Composed aborts b (Effect.breakOff : Effect α)
  | bind {b : Bool} {α β : Type} {x : Effect α} {f : α → Effect β} (hx : Composed aborts b x)
      (hf : ∀ a, Composed aborts b (f a)) : Composed aborts b (x >>= f)
  /-- go on as memory, the calls and the count of statements require -/
  | look {b : Bool} {α : Type} {f : ProgramState → Effect α} (hf : ∀ s, Composed aborts b (f s))
      (hsink : ∀ s sink, f { s with sink } = f s) : Composed aborts b (get >>= f)
  | onMemory {b : Bool} {α : Type} (place : Location) {f : Arena → Except MemoryFault α × Arena}
      (hf : ∀ m : Arena, m.Retains (f m).2) : Composed aborts b (Effect.onMemory place f)
  | releaseAll (ids : List BufferId) : Composed aborts true (Effect.releaseAll ids)
  | write {b : Bool} (place : Location) (bytes : List UInt8) :
      Composed aborts b (Effect.write place bytes)
  | count {b : Bool} :
      Composed aborts b (modify fun s : ProgramState => { s with steps := s.steps + 1 } : Effect Unit)
  | calls (f : Stack Activation → Stack Activation) :
      Composed aborts true (modify fun s : ProgramState => { s with calls := f s.calls } : Effect Unit)

end Effect

/-- The state as it would be if some bytes had been written before. -/
def ProgramState.behind (earlier : Array UInt8) (s : ProgramState) : ProgramState :=
  { s with sink := { s.sink with written := earlier ++ s.sink.written } }

namespace Effect

variable {α β : Type} {aborts : Prop} {b : Bool}

/-! ## What passes from one operation to the next -/

namespace Composed

/-- Without an operation on the calls there are the same ones afterwards, and all buffers there were,
whatever the outcome. -/
theorem calls_eq_and_retains {x : Effect α} (h : Composed aborts false x) (s : ProgramState) :
    (x.run s).2.calls = s.calls ∧ s.memory.Retains (x.run s).2.memory := by
  generalize hb : false = b at h
  induction h generalizing s with
  | pure | throw | breakOff | count => exact ⟨rfl, .refl _⟩
  | @bind _ α β x f _ _ ihx ihf =>
    have hx' := ihx s hb
    rw [run_bind]
    rcases hx : x.run s with ⟨e | a, t⟩
    · rwa [hx] at hx'
    · rw [hx] at hx'
      obtain ⟨hcalls, hmemory⟩ := ihf a t hb
      exact ⟨hcalls.trans hx'.1, hx'.2.trans hmemory⟩
  | look _ _ ih => exact ih s s hb
  | @onMemory _ _ place f hf =>
    have hmemory := hf s.memory
    rcases hm : f s.memory with ⟨fault | a, m⟩
    · rw [hm] at hmemory
      rw [run_onMemory_of_error hm]
      exact ⟨rfl, hmemory⟩
    · rw [hm] at hmemory
      rw [run_onMemory_of_ok hm]
      exact ⟨rfl, hmemory⟩
  | write place bytes =>
    rcases hw : s.sink.write bytes with ⟨fault | _, sink⟩
    · rw [run_write_of_error hw]
      exact ⟨rfl, .refl _⟩
    · rw [run_write_of_ok hw]
      exact ⟨rfl, .refl _⟩
  | releaseAll | calls => cases hb

theorem calls_eq {x : Effect α} (h : Composed aborts false x) (s : ProgramState) :
    (x.run s).2.calls = s.calls := (h.calls_eq_and_retains s).1

theorem retains {x : Effect α} (h : Composed aborts false x) (s : ProgramState) :
    s.memory.Retains (x.run s).2.memory := (h.calls_eq_and_retains s).2

/-- More may be allowed than occurs. -/
theorem weaken {aborts' : Prop} {b' : Bool} {x : Effect α} (h : Composed aborts b x)
    (haborts : aborts → aborts') (hb : b = true → b' = true) : Composed aborts' b' x := by
  induction h with
  | pure a => exact .pure a
  | throw e => exact .throw e
  | breakOff h => exact .breakOff (haborts h)
  | bind _ _ ihx ihf => exact .bind (ihx hb) fun a => ihf a hb
  | look _ hsink ih => exact .look (fun s => ih s hb) hsink
  | onMemory place hf => exact .onMemory place hf
  | releaseAll ids => exact hb rfl ▸ .releaseAll ids
  | write place bytes => exact .write place bytes
  | count => exact .count
  | calls f => exact hb rfl ▸ .calls f

/-- The run is not broken off under other circumstances. -/
theorem of_abort {x : Effect α} (h : Composed aborts b x) {s : ProgramState}
    (habort : (x.run s).1 = .error .abort) : aborts := by
  induction h generalizing s with
  | breakOff h => exact h
  | @bind _ α β x f _ _ ihx ihf =>
    rw [run_bind] at habort
    rcases hx : x.run s with ⟨e | a, t⟩
    · rw [hx] at habort
      cases habort
      exact ihx (congrArg Prod.fst hx)
    · rw [hx] at habort
      exact ihf a habort
  | look _ _ ih => exact ih s habort
  | @onMemory _ _ place f =>
    rcases hm : f s.memory with ⟨fault | a, m⟩
    · rw [run_onMemory_of_error hm] at habort
      cases habort
    · rw [run_onMemory_of_ok hm] at habort
      cases habort
  | write place bytes =>
    rcases hw : s.sink.write bytes with ⟨fault | _, sink⟩
    · rw [run_write_of_error hw] at habort
      cases habort
    · rw [run_write_of_ok hw] at habort
      cases habort
  | pure | throw | releaseAll | count | calls => cases habort

/-- Into a sink that never fails an effect writes the same bytes behind whatever was written before,
and there is no other difference. -/
theorem run_behind {x : Effect α} (h : Composed aborts b x) (earlier : Array UInt8) {s : ProgramState}
    (hs : s.sink.capacity = none) :
    x.run (s.behind earlier) = Prod.map id (·.behind earlier) (x.run s) ∧
      (x.run s).2.sink.capacity = none := by
  induction h generalizing s with
  | pure | throw | breakOff | releaseAll | count | calls => exact ⟨rfl, hs⟩
  | @bind _ α β x f _ _ ihx ihf =>
    obtain ⟨hrun, hcapacity⟩ := ihx hs
    rw [run_bind, run_bind, hrun]
    rcases hx : x.run s with ⟨e | a, t⟩
    · rw [hx] at hcapacity
      exact ⟨rfl, hcapacity⟩
    · rw [hx] at hcapacity
      exact ihf a hcapacity
  | @look _ α f _ hsink ih =>
    obtain ⟨hrun, hcapacity⟩ := ih s hs
    refine ⟨?_, hcapacity⟩
    show (f (s.behind earlier)).run (s.behind earlier) = _
    rw [ProgramState.behind, hsink]
    exact hrun
  | @onMemory _ _ place f _ =>
    have hmemory : (s.behind earlier).memory = s.memory := rfl
    rcases hm : f s.memory with ⟨fault | a, m⟩
    · rw [run_onMemory_of_error hm, run_onMemory_of_error (hmemory ▸ hm)]
      exact ⟨rfl, hs⟩
    · rw [run_onMemory_of_ok hm, run_onMemory_of_ok (hmemory ▸ hm)]
      exact ⟨rfl, hs⟩
  | write place bytes =>
    have hroom : s.sink.hasRoom bytes.length := by simp [Sink.hasRoom, hs]
    have hroom' : (s.behind earlier).sink.hasRoom bytes.length := by
      simp [Sink.hasRoom, ProgramState.behind, hs]
    rw [run_write_of_ok (Sink.write_of_hasRoom hroom), run_write_of_ok (Sink.write_of_hasRoom hroom')]
    have hwritten : earlier ++ s.sink.written ++ bytes = earlier ++ (s.sink.written ++ bytes) := by
      apply Array.toList_inj.1
      simp [List.append_assoc]
    refine ⟨?_, hs⟩
    exact congrArg (fun written => (Except.ok (), { s with sink := ⟨written, s.sink.capacity⟩ })) hwritten

end Composed

/-! ## Memory, calls and output -/

theorem composed_fail (place : Location) (fault : RuntimeFault) :
    Composed aborts b (fail place fault : Effect α) := .throw _

theorem composed_discard {x : Effect α} (hx : Composed aborts b x) : Composed aborts b (discard x) :=
  hx.bind fun _ => .pure ()

theorem composed_ofExcept (place : Location) (x : Except RuntimeFault α) :
    Composed aborts b (ofExcept place x) := by
  cases x with
  | ok a => exact .pure a
  | error fault => exact .throw _

theorem composed_guard (place : Location) (fault : RuntimeFault) (p : Prop) [Decidable p]
    {x : Effect α} (hx : Composed aborts b x) :
    Composed aborts b (if p then (do fail place fault; x) else x) := by
  split
  · exact .bind (composed_fail place fault) fun _ => hx
  · exact hx

theorem composed_readMemory (place : Location) (f : Arena → Except MemoryFault α) :
    Composed aborts b (readMemory place f) := by
  refine .look (fun s => ?_) fun s sink => rfl
  split
  · exact .pure _
  · exact composed_fail _ _

theorem composed_load (place : Location) (p : Pointer) : Composed aborts b (load place p) :=
  composed_readMemory _ _

theorem composed_allocate (place : Location) (length : Nat) (owner : Owner) :
    Composed aborts b (allocate place length owner) := .onMemory _ fun m => m.retains_allocate length owner

theorem composed_write (place : Location) (id : BufferId) (offset : Int) (bytes : List UInt8) :
    Composed aborts b (onMemory place (·.write id offset bytes)) :=
  .onMemory _ fun m => m.retains_write id offset bytes

theorem composed_store (place : Location) (p : Pointer) (v : Value) :
    Composed aborts b (store place p v) := .onMemory _ fun m => m.retains_store p v

theorem composed_storeSlots (place : Location) (id : BufferId) (type : CType)
    (values : List (Value × Nat)) : Composed aborts b (storeSlots place id type values) := by
  induction values with
  | nil => exact .pure ()
  | cons head rest ih => exact (composed_discard (composed_store ..)).bind fun _ => ih

theorem composed_current (place : Location) : Composed aborts b (current place) := by
  refine .look (fun s => ?_) fun s sink => rfl
  split
  · exact .pure _
  · exact composed_fail _ _

theorem composed_lookup (place : Location) (name : String) : Composed aborts b (lookup place name) := by
  refine .look (fun s => ?_) fun s sink => rfl
  split
  · exact .pure _
  · exact composed_fail _ _

theorem composed_modifyCurrent (place : Location) (f : Activation → Activation) :
    Composed aborts true (modifyCurrent place f) :=
  (composed_discard (composed_current place)).bind fun _ => .calls (·.modifyTop f)

theorem composed_closeScope (place : Location) : Composed aborts true (closeScope place) :=
  (composed_current place).bind fun _ => .bind (.releaseAll _) fun _ => composed_modifyCurrent ..

/-! ## Operations -/

theorem composed_variablePlace (place : Location) (name : String) (access : Access) :
    Composed aborts b (variablePlace place name access) :=
  (composed_lookup place name).bind fun _ => composed_guard _ _ _ (.pure _)

theorem composed_variableValue (place : Location) (name : String) :
    Composed aborts b (variableValue place name) :=
  (composed_lookup place name).bind fun _ => composed_load ..

theorem composed_pointerPlace (place : Location) (v : Value) : Composed aborts b (pointerPlace place v) := by
  cases v with
  | pointer p => exact .pure p
  | _ => exact composed_fail _ _

theorem composed_assign (place : Location) (target : Pointer) (v : Value) :
    Composed aborts b (assign place target v) := by
  unfold assign
  split
  · exact composed_fail _ _
  · exact composed_store ..

theorem composed_compoundAssign (op : BinaryOp) (place : Location) (target : Pointer) (v : Value) :
    Composed aborts b (compoundAssign op place target v) :=
  (composed_load ..).bind fun _ => (composed_ofExcept ..).bind fun _ => composed_assign ..

theorem composed_stepPlace (op : StepOp) (place : Location) (target : Pointer) :
    Composed aborts b (step op place target) :=
  (composed_load ..).bind fun _ => (composed_ofExcept ..).bind fun _ =>
    (composed_store ..).bind fun _ => .pure _

theorem composed_print (place : Location) (start length : Value) :
    Composed aborts b (print place start length) := by
  unfold print
  split
  · exact composed_fail _ _
  · exact composed_fail _ _
  · exact composed_guard _ _ _ ((composed_readMemory ..).bind fun bytes =>
      .bind (.write place bytes) fun _ => .pure _)

/-! ## Literals and declarations -/

theorem composed_literalStorage (site : Location) (length : Nat) :
    Composed aborts true (literalStorage site length) := by
  have hfresh : Composed aborts true (literalStorage.fresh site length) :=
    (composed_allocate ..).bind fun id => (composed_modifyCurrent site _).bind fun _ => .pure id
  refine (composed_current site).bind fun a => ?_
  dsimp only
  split
  · refine .look (fun s => ?_) fun s sink => rfl
    split
    · exact .pure _
    · exact hfresh
  · exact hfresh

theorem composed_stringLiteral (site : Location) (bytes : List UInt8) :
    Composed aborts true (stringLiteral site bytes) :=
  (composed_literalStorage ..).bind fun _ => (composed_write ..).bind fun _ => .pure _

theorem composed_filledLiteral (site : Location) (element : CType) (values : List Value) :
    Composed aborts true (filledLiteral site element values) :=
  (composed_literalStorage ..).bind fun _ => (composed_storeSlots ..).bind fun _ => .pure _

theorem composed_arrayLiteral (site : Location) (values : List Value) :
    Composed aborts true (arrayLiteral site values) :=
  (composed_filledLiteral ..).bind fun _ => .pure _

theorem composed_fill {d : Declaration} (h : d.BreaksOff → aborts) (x : Binding) (values : List Value) :
    Composed aborts true (d.fill x values) := by
  unfold Declaration.fill
  dsimp only
  split
  · exact .pure ()
  · split
    · exact composed_write ..
    · exact composed_fail _ _
  · rename_i hinit
    split
    · exact composed_storeSlots ..
    · exact composed_fail _ _
    · rename_i hslots
      exact .breakOff (h (Declaration.breaksOff_of_slots hinit hslots))
  · exact composed_fail _ _
  · split
    · exact composed_fail _ _
    · exact (composed_filledLiteral ..).bind fun _ => composed_discard (composed_store ..)
  · split
    · exact composed_discard (composed_store ..)
    · exact composed_fail _ _

theorem composed_define {d : Declaration} (h : d.BreaksOff → aborts) (values : List Value) :
    Composed aborts true (d.define values) :=
  composed_guard _ _ _ ((composed_allocate ..).bind fun _ => (composed_modifyCurrent ..).bind fun _ =>
    (composed_fill h ..).bind fun _ => .pure _)

/-! ## Calls -/

theorem composed_countStep (limits : Limits) (place : Location) :
    Composed aborts b (countStep limits place) := by
  refine .bind .count fun _ => ?_
  cases limits.maxSteps with
  | none => exact .pure ()
  | some limit =>
    refine .look (fun s => ?_) fun s sink => rfl
    split
    · exact composed_fail _ _
    · exact .pure ()

theorem composed_bindParams (place : Location) (a : Activation) (params : List (Param × Value)) :
    Composed aborts b (bindParams place a params) := by
  induction params generalizing a with
  | nil => exact .pure a
  | cons head rest ih =>
    exact (composed_allocate ..).bind fun _ => (composed_discard (composed_store ..)).bind fun _ => ih _

theorem composed_enterCall (limits : Limits) (f : Function) (args : List Value)
    (callSite : Option Location) : Composed aborts true (enterCall limits f args callSite) := by
  refine .look (fun s => composed_guard _ _ _ ?_) fun s sink => rfl
  exact (composed_bindParams ..).bind fun a => .calls (·.push a)

theorem composed_popCall (place : Location) : Composed aborts true (popCall place) :=
  (composed_current place).bind fun a => .bind (.calls Stack.pop) fun _ => .pure a

theorem composed_callResult (place : Location) (returnType : CType) (v : Option Value) :
    Composed aborts b (callResult place returnType v) := by
  cases v with
  | none => exact .pure _
  | some v =>
    unfold callResult
    dsimp only
    split
    · exact .pure _
    · exact composed_readMemory ..

theorem composed_leaveCall (place : Location) (value : Option Value) :
    Composed aborts true (leaveCall place value) :=
  (composed_popCall place).bind fun _ => (composed_callResult ..).bind fun _ =>
    .bind (.releaseAll _) fun _ => .pure _

theorem composed_exitValue (place : Location) (result : Value) :
    Composed aborts b (exitValue place result) := by
  unfold exitValue
  split
  · exact .pure _
  · exact composed_fail _ _

theorem composed_bindArgumentsFrom (place : Location) (table : BufferId) (slot : Nat)
    (args : List (List UInt8)) : Composed aborts b (bindArgumentsFrom place table slot args) := by
  induction args generalizing slot with
  | nil => exact .pure ()
  | cons arg rest ih =>
    exact .bind (.onMemory place fun m => m.retains_allocateWith _ .argument) fun _ =>
      (composed_storeSlots ..).bind fun _ => ih _

theorem composed_bindArguments (place : Location) (args : List (List UInt8)) :
    Composed aborts b (bindArguments place args) :=
  (composed_allocate ..).bind fun _ => (composed_bindArgumentsFrom ..).bind fun _ =>
    composed_guard _ _ _ (.pure _)

end Effect

/-! ## Jobs -/

open Effect

variable {aborts : Prop} {b : Bool}

namespace Pending

theorem composed_pop (place : Location) (p : Pending) : Composed aborts b (p.pop place) := by
  unfold pop
  split
  · exact .pure _
  · exact composed_fail _ _

theorem composed_popPlace (place : Location) (p : Pending) : Composed aborts b (p.popPlace place) := by
  refine (composed_pop place p).bind fun r => ?_
  split
  · exact .pure _
  · exact composed_fail _ _

theorem composed_popMany (place : Location) (p : Pending) (count : Nat) :
    Composed aborts b (p.popMany place count) := by
  unfold popMany
  split
  · exact .pure _
  · exact composed_fail _ _

theorem composed_unwind (place : Location) (isTarget : Job → Bool) (jobs : List Job)
    (stack : Stack Job) : Composed aborts true (unwind place isTarget jobs stack) := by
  fun_induction unwind place isTarget jobs stack with
  | case1 stack => exact composed_fail _ _
  | case2 stack end_ rest => exact composed_fail _ _
  | case3 stack scope rest ih => exact (composed_closeScope place).bind fun _ => ih
  | case4 stack job rest hend hscope htarget => exact .pure _
  | case5 stack job rest hend hscope htarget ih => exact ih

theorem composed_unwindTo (place : Location) (isTarget : Job → Bool) (p : Pending) :
    Composed aborts true (p.unwindTo place isTarget) :=
  (composed_unwind ..).bind fun _ => .pure _

end Pending

def Job.changesCalls : Job → Bool
  | .evaluate (.stringLiteral ..) | .arrayLiteral .. | .declare .. => true
  | .execute (.block ..) | .execute (.forLoop ..) | .closeScope _ => true
  | .execute (.breakLoop _) | .execute (.continueLoop _) => true
  | .call .. | .giveBack .. | .bodyEnd _ => true
  | _ => false

/-- The job creates a variable whose declaration breaks off the run. -/
def Job.BreaksOff : Job → Prop
  | .declare d _ => d.BreaksOff
  | _ => False

namespace Interpreter

variable (i : Interpreter)

theorem composed_evaluate (node : Node) (p : Pending) :
    Composed aborts (Job.evaluate node).changesCalls (i.evaluate node p) := by
  cases node with
  | stringLiteral => exact (composed_stringLiteral ..).bind fun _ => .pure _
  | identifier => exact (composed_variableValue ..).bind fun _ => .pure _
  | binary place op left right =>
    unfold evaluate
    dsimp only
    split <;> exact .pure _
  | call => exact (composed_ofExcept ..).bind fun _ => .pure _
  | intLiteral | charLiteral | arrayLiteral | unary | step | deref | index | addressOf | assign
  | compoundAssign | declaration => exact .pure _
  | _ => exact composed_fail _ _

theorem composed_locate (node : Node) (access : Access) (p : Pending) :
    Composed aborts b (locate node access p) := by
  cases node with
  | identifier => exact (composed_variablePlace ..).bind fun _ => .pure _
  | deref | index => exact .pure _
  | _ => exact composed_fail _ _

theorem composed_execute (node : Node) (p : Pending) :
    Composed aborts (Job.execute node).changesCalls (i.execute node p) := by
  rw [execute_eq]
  refine (composed_countStep ..).bind fun _ => ?_
  cases node with
  | block | forLoop => exact (composed_modifyCurrent ..).bind fun _ => .pure _
  | breakLoop | continueLoop => exact Pending.composed_unwindTo ..
  | function => exact composed_fail _ _
  | _ => exact .pure _

theorem composed_resume (result : Value) (place : Location) (p : Pending) (bases : List Heights) :
    Composed aborts b (resume result place p bases) := by
  unfold resume
  split
  · exact .pure _
  · exact (composed_exitValue ..).bind fun _ => .pure _

theorem composed_giveBack (value : Option Value) (place : Location) (p : Pending)
    (bases : List Heights) : Composed aborts true (giveBack value place p bases) :=
  (composed_leaveCall ..).bind fun _ => composed_resume ..

theorem composed_perform (job : Job) (p : Pending) (bases : List Heights) :
    Composed job.BreaksOff job.changesCalls (i.perform job p bases) := by
  have hgo {aborts : Prop} {b : Bool} {next : Effect Pending} (hnext : Composed aborts b next) :
      Composed aborts b (do return Progress.running ⟨← next, bases⟩) := hnext.bind fun _ => .pure _
  have hpop {α : Type} {aborts : Prop} {b : Bool} {place : Location} {p : Pending}
      {f : Value × Pending → Effect α} (hf : ∀ r, Composed aborts b (f r)) :
      Composed aborts b (p.pop place >>= f) := (Pending.composed_pop place p).bind hf
  have hpush {aborts : Prop} {b : Bool} {p : Pending} {x : Effect Value} (hx : Composed aborts b x) :
      Composed aborts b (do return p.push (← x)) := hx.bind fun _ => .pure _
  cases job with
  | execute node => exact hgo (composed_execute i node p)
  | evaluate node => exact hgo (composed_evaluate i node p)
  | locate node access => exact hgo (composed_locate node access p)
  | discard | truth => exact hgo (hpop fun _ => .pure _)
  | closeScope => exact hgo ((composed_closeScope _).bind fun _ => .pure _)
  | binary => exact hgo (hpop fun _ => hpop fun _ => hpush (composed_ofExcept ..))
  | logical | branch | whileTest | forTest =>
    refine hgo (hpop fun r => ?_)
    dsimp only
    split <;> exact .pure _
  | unary => exact hgo (hpop fun _ => hpush (composed_ofExcept ..))
  | step => exact hgo ((Pending.composed_popPlace ..).bind fun _ => hpush (composed_stepPlace ..))
  | load => exact hgo ((Pending.composed_popPlace ..).bind fun _ => hpush (composed_load ..))
  | requirePointer => exact hgo (hpop fun _ => (composed_pointerPlace ..).bind fun _ => .pure _)
  | index => exact hgo (hpop fun _ => hpop fun _ => (composed_ofExcept ..).bind fun _ => .pure _)
  | assign =>
    exact hgo (hpop fun _ => (Pending.composed_popPlace ..).bind fun _ => hpush (composed_assign ..))
  | compoundAssign =>
    exact hgo (hpop fun _ => (Pending.composed_popPlace ..).bind fun _ =>
      hpush (composed_compoundAssign ..))
  | arrayLiteral =>
    exact hgo ((Pending.composed_popMany ..).bind fun _ => hpush (composed_arrayLiteral ..))
  | declare d asValue =>
    have hdefine (values : List Value) : Composed d.BreaksOff true (d.define values) :=
      composed_define id values
    refine hgo ((Pending.composed_popMany ..).bind fun r => (hdefine r.1).bind fun x => ?_)
    split
    · exact hpush (composed_load ..)
    · exact .pure _
  | call f place =>
    exact (Pending.composed_popMany ..).bind fun _ => (composed_enterCall ..).bind fun _ => .pure _
  | print => exact hgo (hpop fun _ => hpop fun _ => hpush (composed_print ..))
  | forCondition | forNext | continueTarget | loopEnd => exact hgo (.pure _)
  | giveBack hasValue place =>
    cases hasValue with
    | true => exact (Pending.composed_pop ..).bind fun _ => composed_giveBack ..
    | false => exact composed_giveBack ..
  | bodyEnd => exact composed_giveBack ..

theorem composed_step (m : Machine) :
    Composed (∃ job, m.pending.jobs.top? = some job ∧ job.BreaksOff) true (i.step m) := by
  unfold step
  split
  · rename_i job hjob
    exact (composed_perform i job _ _).weaken (fun h => ⟨job, hjob, h⟩) fun _ => rfl
  · exact .pure _

theorem composed_enterMain (args : List (List UInt8)) : Composed aborts true (i.enterMain args) := by
  unfold enterMain
  split
  · exact .throw _
  · exact composed_guard _ _ _ ((composed_bindArguments ..).bind fun _ =>
      (composed_enterCall ..).bind fun _ => .pure _)

end Interpreter

end BoundedC
