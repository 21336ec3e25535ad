import BoundedC.Proofs.Callers
import BoundedC.Proofs.LiteralPlaces
import BoundedC.Proofs.LiteralRuns
import BoundedC.Proofs.Purposes
import BoundedC.Proofs.TypedStorage

/-!
# Each evaluation of a string literal sees its own text

What a program writes to a string literal is gone when the literal is evaluated again. The call that
evaluates it gets the buffer that it had for the literal before, filled anew, and shares that buffer
with nothing else.

* `Arena.exists_write_of_shape?` : a buffer written as a whole;
* `Effect.run_stringLiteral` : an evaluation, from a call whose buffers have the right shape;
* `Interpreter.Meets` : at each evaluation they have it, since no other literal stands at the place;
* `IsPristine`, `isPristine_of_evaluate` : any evaluation in a run.
-/

namespace BoundedC

open Effect Interpreter

/-! ## Whole buffers -/

/-- Bytes that take the place of all others. -/
theorem setBytes_of_length {old : Array UInt8} {bytes : List UInt8} (h : old.size = bytes.length) :
    setBytes old 0 bytes = bytes.toArray := by
  refine Array.ext_getElem? fun position => ?_
  have hnew : bytes.toArray[position]? = bytes[position]? := List.getElem?_toArray
  rw [getElem?_setBytes (by omega), if_pos (Nat.zero_le _), Nat.sub_zero, hnew]
  rcases Nat.lt_or_ge position bytes.length with hlt | hge
  · rw [List.getElem?_eq_getElem hlt, Option.some_or]
  · rw [List.getElem?_eq_none hge, Option.none_or, Array.getElem?_eq_none (by omega)]

namespace Arena

variable {a : Arena} {id : BufferId} {owner : Owner} {bytes : List UInt8}

/-- A buffer that is written as a whole holds what is written, whatever it held before. -/
theorem exists_write_of_shape? (hshape : a.shape? id = some (owner, bytes.length))
    (hbytes : bytes ≠ []) :
    ∃ b, a.write id 0 bytes = (.ok (), b) ∧ b.get? id = some ⟨bytes.toArray, owner⟩ := by
  obtain ⟨buffer, hget, howner, hsize⟩ := get?_of_shape? hshape
  have hid : id ≠ .null := by
    rintro rfl
    cases hget
    exact hbytes (List.eq_nil_of_length_eq_zero hsize.symm)
  have hstart : a.start id 0 bytes.length = .ok 0 :=
    start_eq_ok_iff.2 ⟨buffer, hget, Int.le_refl 0, by rw [hsize, Int.zero_add], rfl⟩
  refine ⟨a.overwrite id 0 bytes, by rw [write, hstart], ?_⟩
  rw [get?_overwrite_self a hid, hget, Option.map_some, setBytes_of_length hsize, howner]

end Arena

/-! ## The literals of a call -/

namespace Activation

/-- If all buffers for a literal have the same shape, the call has one for it. -/
theorem lookup_eq_of_mem {memory : Arena} {shape : Owner × Nat} {site : Location} {id : BufferId}
    {literals : List (Location × BufferId)} (hspread : Spread memory literals)
    (hshapes : ∀ last, (site, last) ∈ literals → memory.shape? last = some shape)
    (hmem : (site, id) ∈ literals) : literals.lookup site = some id := by
  induction literals with
  | nil => cases hmem
  | cons x older ih =>
    obtain ⟨site', latest⟩ := x
    have holder := ih hspread.2 fun last hlast => hshapes last (List.mem_cons_of_mem _ hlast)
    rcases List.mem_cons.1 hmem with heq | hid
    · cases heq
      exact List.lookup_cons_self
    · have hne : site ≠ site' := by
        rintro rfl
        refine hspread.1 id (holder hid) ?_
        rw [hshapes id (List.mem_cons_of_mem _ hid), hshapes latest List.mem_cons_self]
      rw [List.lookup_cons, beq_eq_false_iff_ne.2 hne]
      exact holder hid

end Activation

namespace Effect

variable {s : ProgramState} {a : Activation} {callers : List Activation} {site : Location}
  {length : Nat} {bytes : List UInt8}

/-- A new buffer for a literal, unless memory is exhausted. -/
theorem run_fresh (site : Location) (length : Nat) (hs : s.calls.items = a :: callers) :
    (∃ fault, (s.memory.allocate length .literal).1 = .error fault ∧
      (literalStorage.fresh site length).run s = (.error (.fault (.memory fault) site), s)) ∨
    ∃ id t, (literalStorage.fresh site length).run s = (.ok id, t) ∧
      t.calls.items = a.adopt site id :: callers ∧ t.memory.shape? id = some (.literal, length) := by
  unfold literalStorage.fresh
  rcases hallocate : s.memory.allocate length .literal with ⟨fault | id, memory⟩
  · have hmemory : memory = s.memory := by
      have h := Arena.allocate_of_error (congrArg Prod.fst hallocate)
      rwa [hallocate] at h
    subst hmemory
    exact .inl ⟨fault, rfl, run_bind_of_error (run_onMemory_of_error hallocate) _⟩
  · have hadopt := run_modifyCurrent_of_cons site (·.adopt site id) (s := { s with memory }) hs
    refine .inr ⟨id, _, (run_bind_of_ok (run_onMemory_of_ok hallocate) _).trans (run_bind_of_ok hadopt _), ?_⟩
    exact ⟨Stack.items_modifyTop_of_cons hs _, (Arena.adds_of_allocate hallocate).added⟩

/-- The call on top of the others has a buffer for the literal at a place. Before, when it was `a`, it
had no other one for it. -/
structure Houses (a : Activation) (callers : List Activation) (site : Location) (id : BufferId)
    (t : ProgramState) : Prop where
  calls : ∃ b : Activation, t.calls.items = b :: callers ∧ b.literal? site = some id
  latest : ∀ last, a.literal? site = some last → last = id

/-- If the last buffer of a literal has the length that is needed, it is taken; else there was none. -/
theorem run_literalStorage (hs : s.calls.items = a :: callers)
    (hlast : ∀ last, a.literal? site = some last → s.memory.shape? last = some (.literal, length)) :
    (a.literal? site = none ∧ ∃ fault, (s.memory.allocate length .literal).1 = .error fault ∧
      (literalStorage site length).run s = (.error (.fault (.memory fault) site), s)) ∨
    ∃ id t, (literalStorage site length).run s = (.ok id, t) ∧ Houses a callers site id t ∧
      t.memory.shape? id = some (.literal, length) := by
  rw [literalStorage, run_bind_of_ok (run_current_of_cons site hs)]
  cases hliteral : a.literal? site with
  | some id =>
    have hshape := hlast id hliteral
    obtain ⟨buffer, hbuffer, -, hsize⟩ := Arena.get?_of_shape? hshape
    have hfits : (s.memory.get? id).any (·.size = length) = true := by simp [hbuffer, hsize]
    refine .inr ⟨id, s, ?_, ⟨⟨a, hs, hliteral⟩, fun last h => ?_⟩, hshape⟩
    · dsimp only
      rw [run_bind_of_ok (run_get _), if_pos hfits, run_pure]
    · exact (Option.some.inj (hliteral.symm.trans h)).symm
  | none =>
    dsimp only
    rcases run_fresh site length hs with
      ⟨fault, hfault, hrun⟩ | ⟨id, t, hrun, ht, hshape⟩
    · exact .inl ⟨rfl, fault, hfault, hrun⟩
    · refine .inr ⟨id, t, hrun, ⟨⟨_, ht, a.literal?_adopt_self site id⟩, fun last h => ?_⟩, hshape⟩
      cases hliteral.symm.trans h

/-- The buffer of a string literal is filled anew, whatever it held before. -/
theorem run_stringLiteral (hs : s.calls.items = a :: callers)
    (hlast : ∀ last, a.literal? site = some last →
      s.memory.shape? last = some (.literal, bytes.length + 1)) :
    (a.literal? site = none ∧ ∃ fault, (s.memory.allocate (bytes.length + 1) .literal).1 = .error fault ∧
      (stringLiteral site bytes).run s = (.error (.fault (.memory fault) site), s)) ∨
    ∃ id t, (stringLiteral site bytes).run s = (.ok (.pointer ⟨id, 0, .char⟩), t) ∧
      Houses a callers site id t ∧ t.memory.get? id = some ⟨(bytes ++ [0]).toArray, .literal⟩ := by
  have hlength : (bytes ++ [0]).length = bytes.length + 1 := List.length_append
  rw [← hlength] at hlast ⊢
  rcases run_literalStorage hs hlast with ⟨hnone, fault, hfault, hrun⟩ | ⟨id, t, hrun, hhouses, hshape⟩
  · exact .inl ⟨hnone, fault, hfault, run_bind_of_error hrun _⟩
  · obtain ⟨memory, hwrite, hget⟩ := Arena.exists_write_of_shape? hshape (by simp)
    have hwritten : (onMemory site (·.write id 0 (bytes ++ [0]))).run t = (.ok (), { t with memory }) :=
      run_onMemory_of_ok hwrite
    refine .inr ⟨id, { t with memory }, ?_, ⟨hhouses.calls, hhouses.latest⟩, hget⟩
    exact (run_bind_of_ok hrun _).trans (run_bind_of_ok hwritten _)

end Effect

/-! ## Jobs -/

namespace Interpreter

variable {i : Interpreter} {m : Machine} {s t : ProgramState} {a : Activation}
  {callers : List Activation} {rest : Stack Job} {place : Location} {bytes : List UInt8}
  {id : BufferId} {program : Program}

/-- The evaluation of a string literal, whatever it leads to. -/
theorem next_stringLiteral (hjob : m.pending.jobs = rest.push (.evaluate (.stringLiteral place bytes)))
    (hs : s.calls.items = a :: callers)
    (hlast : ∀ last, a.literal? place = some last →
      s.memory.shape? last = some (.literal, bytes.length + 1)) :
    (a.literal? place = none ∧ ∃ fault, (s.memory.allocate (bytes.length + 1) .literal).1 = .error fault ∧
      i.next (.underWay m s) = .ended (.error (.fault (.memory fault) place)) s) ∨
    ∃ id t, i.next (.underWay m s) =
        .underWay ⟨⟨rest, m.pending.operands.push (.pointer ⟨id, 0, .char⟩)⟩, m.bases⟩ t ∧
      Houses a callers place id t ∧ t.memory.get? id = some ⟨(bytes ++ [0]).toArray, .literal⟩ := by
  obtain ⟨⟨jobs, operands⟩, bases⟩ := m
  obtain rfl : jobs = rest.push (.evaluate (.stringLiteral place bytes)) := hjob
  have hnext : i.next (.underWay ⟨⟨rest.push (.evaluate (.stringLiteral place bytes)), operands⟩, bases⟩ s) =
      .ofStep ((do
        let p ← (do return Pending.push ⟨rest, operands⟩ (← stringLiteral place bytes))
        return Progress.running ⟨p, bases⟩ : Effect Progress).run s) := rfl
  rw [hnext]
  rcases run_stringLiteral hs hlast with ⟨hnone, fault, hfault, hrun⟩ | ⟨id, t, hrun, hhouses, hget⟩
  · refine .inl ⟨hnone, fault, hfault, ?_⟩
    rw [run_bind_of_error (run_bind_of_error hrun _)]
    rfl
  · refine .inr ⟨id, t, ?_, hhouses, hget⟩
    rw [run_bind_of_ok (run_bind_of_ok hrun _)]
    rfl

/-- The call `a` is in progress and is about to evaluate a string literal of the program. The buffers
that it has for the literal have the right shape. -/
structure Meets (program : Program) (s : ProgramState) (a : Activation) (callers : List Activation)
    (place : Location) (bytes : List UInt8) : Prop where
  calls : s.calls.items = a :: callers
  within : (Node.stringLiteral place bytes).Within program.nodes
  spread : Activation.Spread s.memory a.literals
  shapes : ∀ last, (place, last) ∈ a.literals →
    s.memory.shape? last = some (.literal, bytes.length + 1)

/-- No other literal stands at the place, so the buffers are for strings of the same length. -/
theorem exists_meets {text : String} {limits : Limits} (h : compile text = .ok program)
    (hgoes : Goes (.ofProgram program limits) (.underWay m s))
    (hjob : m.pending.jobs = rest.push (.evaluate (.stringLiteral place bytes))) :
    ∃ a callers, Meets program s a callers place bytes := by
  have hstems := hgoes.stems m s rfl
  rw [hjob] at hstems
  obtain ⟨a, callers, f, hcalls, hf, hjob⟩ := hstems.exists_within (Stack.top?_push ..)
  obtain ⟨g, hg, hfrugal⟩ := hgoes.frugal a (hcalls ▸ List.mem_cons_self)
  cases hf.symm.trans hg
  have hmem : f ∈ program.functions := List.mem_reverse.1 (List.mem_of_find?_eq_some hf)
  have hwithin : (Node.stringLiteral place bytes).Within program.nodes := .of_body hjob hmem
  refine ⟨a, callers, hcalls, hwithin, hfrugal.spread, fun last hlast => ?_⟩
  obtain ⟨node, hnode, length, hstores, hshape⟩ := hfrugal.sites _ hlast
  obtain rfl := eq_stringLiteral_of_stores h hwithin (.of_body hnode hmem) hstores
  obtain ⟨-, rfl⟩ := hstores
  exact hshape

theorem Meets.shape? (h : Meets program s a callers place bytes) :
    ∀ last, a.literal? place = some last → s.memory.shape? last = some (.literal, bytes.length + 1) :=
  fun last hlast => h.shapes last (Activation.mem_of_lookup hlast)

/-- A buffer that the call has for the literal is the one that the evaluation takes. -/
theorem Meets.literal?_eq (h : Meets program s a callers place bytes)
    (hid : s.Uses id (.literal callers.length place)) : a.literal? place = some id := by
  obtain ⟨b, hb, hmem⟩ := hid
  rw [h.calls, callAt_length] at hb
  cases hb
  exact Activation.lookup_eq_of_mem h.spread h.shapes hmem

theorem uses_of_houses (h : Houses a callers place id t) : t.Uses id (.literal callers.length place) := by
  obtain ⟨b, ht, hid⟩ := h.calls
  exact ⟨b, by rw [ht, callAt_length], Activation.mem_of_lookup hid⟩

theorem length_of_houses (h : Houses a callers place id t) : t.calls.items.length = callers.length + 1 := by
  obtain ⟨b, ht, -⟩ := h.calls
  rw [ht, List.length_cons]

/-- A call that has a buffer for a string literal gets it again. -/
theorem Meets.next_of_uses (h : Meets program s a callers place bytes)
    (hjob : m.pending.jobs = rest.push (.evaluate (.stringLiteral place bytes)))
    (hid : s.Uses id (.literal callers.length place)) :
    ∃ t, i.next (.underWay m s) =
      .underWay ⟨⟨rest, m.pending.operands.push (.pointer ⟨id, 0, .char⟩)⟩, m.bases⟩ t := by
  have hliteral := h.literal?_eq hid
  rcases next_stringLiteral (i := i) hjob h.calls h.shape? with
    ⟨hnone, -⟩ | ⟨latest, t, hnext, hhouses, -⟩
  · cases hnone.symm.trans hliteral
  · cases hhouses.latest id hliteral
    exact ⟨t, hnext⟩

end Interpreter

/-! ## Runs -/

/-- At moment `n` of a run, in state `t`, the buffer holds the text of the string literal at the place and
a closing NUL. The call with the given number, which is in progress, has it for this literal. -/
structure IsPristine (i : Interpreter) (r : Run) (n call : Nat) (place : Location) (bytes : List UInt8)
    (id : BufferId) (t : ProgramState) : Prop where
  contents : t.memory.get? id = some ⟨(bytes ++ [0]).toArray, .literal⟩
  owned : t.Uses id (.literal call place)
  running : t.calls.items.length = call + 1
  /-- before and after, the buffer serves no other purpose, and no purpose of another call -/
  exclusive : ∀ k m u x, i.advance k r = .underWay m u → u.Uses id x →
    x = .literal call place ∧ i.Lasts r call (min n k) (max n k)
  /-- as long as the call goes on, it gets the same buffer when it evaluates the literal again -/
  again : ∀ k m u rest bytes', n ≤ k → i.Lasts r call n k → i.advance k r = .underWay m u →
    u.calls.items.length = call + 1 →
    m.pending.jobs = rest.push (.evaluate (.stringLiteral place bytes')) →
    bytes' = bytes ∧ ∃ v, i.advance (k + 1) r =
      .underWay ⟨⟨rest, m.pending.operands.push (.pointer ⟨id, 0, .char⟩)⟩, m.bases⟩ v

/-- The evaluation of a string literal, at any moment of any run of an accepted program, gives a pointer
to the first byte of a buffer that holds the text of the literal and a closing NUL. The buffer is the
call's own for this literal. Only where the call has none yet, and memory is exhausted, the run ends. -/
theorem isPristine_of_evaluate {text : String} {program : Program} (limits : Limits)
    (args : List (List UInt8)) (sink : Sink) {n : Nat} {m : Machine} {s : ProgramState}
    {rest : Stack Job} {place : Location} {bytes : List UInt8} (h : compile text = .ok program) :
    let i := Interpreter.ofProgram program limits
    let r := i.begin args sink
    i.advance n r = .underWay m s →
    m.pending.jobs = rest.push (.evaluate (.stringLiteral place bytes)) →
    ∃ call, s.calls.items.length = call + 1 ∧
      ((∃ fault, (s.memory.allocate (bytes.length + 1) .literal).1 = .error fault ∧
        (∀ id, ¬ s.Uses id (.literal call place)) ∧
        i.advance (n + 1) r = .ended (.error (.fault (.memory fault) place)) s) ∨
      ∃ id t, i.advance (n + 1) r =
          .underWay ⟨⟨rest, m.pending.operands.push (.pointer ⟨id, 0, .char⟩)⟩, m.bases⟩ t ∧
        IsPristine i r (n + 1) call place bytes id t) := by
  intro i r hrun hjob
  have hafter : i.advance (n + 1) r = i.next (.underWay m s) := by rw [advance_succ', hrun]
  obtain ⟨a, callers, hmeets⟩ := exists_meets h (hrun ▸ goes_advance i args sink n) hjob
  refine ⟨callers.length, by rw [hmeets.calls, List.length_cons], ?_⟩
  rcases next_stringLiteral (i := i) hjob hmeets.calls hmeets.shape? with
    ⟨hnone, fault, hfault, hnext⟩ | ⟨id, t, hnext, hhouses, hget⟩
  · refine .inl ⟨fault, hfault, fun id hid => ?_, hafter.trans hnext⟩
    cases hnone.symm.trans (hmeets.literal?_eq hid)
  · rw [hnext] at hafter
    have hid := uses_of_houses hhouses
    refine .inr ⟨id, t, hafter, hget, hid, length_of_houses hhouses, ?_, ?_⟩
    · intro k m' u x hk hx
      exact literal_unique hafter hk hid hx
    · intro k m' u rest' bytes' hnk hlasts hk hcall hjob'
      obtain ⟨b, callers', hmeets'⟩ := exists_meets h (hk ▸ goes_advance i args sink k) hjob'
      have hlength : callers'.length = callers.length := by simpa [hmeets'.calls] using hcall
      have hnode := eq_stringLiteral_of_stores h hmeets.within hmeets'.within ⟨rfl, rfl⟩
      have hkept := (keepsLiterals_of_lasts hnk hafter hk hlasts).uses hid
      obtain ⟨v, hagain⟩ := hmeets'.next_of_uses (i := i) hjob' (hlength ▸ hkept)
      exact ⟨by cases hnode; rfl, v, by rw [advance_succ', hk, hagain]⟩

/-- The bytes of the string literal that the next job evaluates. -/
def Run.stringLiteral? : Run → Option (List UInt8)
  | .underWay ⟨⟨⟨.evaluate (.stringLiteral _ bytes) :: _, _, _⟩, _⟩, _⟩ _ => some bytes
  | _ => none

theorem Run.exists_of_stringLiteral? {r : Run} {bytes : List UInt8} (h : r.stringLiteral? = some bytes) :
    ∃ m place, ∃ rest : Stack Job, r = .underWay m r.state ∧
      m.pending.jobs = rest.push (.evaluate (.stringLiteral place bytes)) := by
  cases r with
  | ended => cases h
  | underWay m s =>
    obtain ⟨⟨⟨items, height, hheight⟩, operands⟩, bases⟩ := m
    cases items with
    | nil => cases h
    | cons job items =>
      cases job with
      | evaluate node =>
        cases node with
        | stringLiteral place bytes' =>
          cases h
          exact ⟨_, place, ⟨items, items.length, rfl⟩, rfl, Stack.ext rfl⟩
        | _ => cases h
      | _ => cases h

/-- A program that overwrites the text of a string literal before it evaluates the literal again. -/
def rewrittenLiteral : List Char :=
  "int main() \x7b int i = 0; while (i < 2) \x7b char *p = \"ab\"; p[0] = 'x'; i += 1; \x7d ".toList ++
    "return 0; \x7d".toList

theorem exists_stringLiteral?_rewrittenLiteral : ∃ program,
    compile (String.ofList rewrittenLiteral) = .ok program ∧
      let i := Interpreter.ofProgram program .default
      let r := i.advance 37 (i.begin [] .unlimited)
      r.stringLiteral? = some [97, 98] ∧
        r.state.memory.get? ⟨3⟩ = some ⟨#[120, 98, 0], .literal⟩ := by
  have h : ∃ program, compile (String.ofList rewrittenLiteral) = .ok program ∧
      decide (let i := Interpreter.ofProgram program .default
        let r := i.advance 37 (i.begin [] .unlimited)
        r.stringLiteral? = some [97, 98] ∧
          r.state.memory.get? ⟨3⟩ = some ⟨#[120, 98, 0], .literal⟩) = true :=
    exists_compile_of_any (by decide +kernel)
  obtain ⟨program, hcompile, hrun⟩ := h
  exact ⟨program, hcompile, of_decide_eq_true hrun⟩

/-- The second evaluation finds the text overwritten, and restores it. -/
theorem exists_isPristine_rewritten : ∃ program m s place, ∃ rest : Stack Job,
    compile (String.ofList rewrittenLiteral) = .ok program ∧
      let i := Interpreter.ofProgram program .default
      let r := i.begin [] .unlimited
      i.advance 37 r = .underWay m s ∧
        m.pending.jobs = rest.push (.evaluate (.stringLiteral place [97, 98])) ∧
        s.memory.get? ⟨3⟩ = some ⟨#[120, 98, 0], .literal⟩ ∧
        ∃ call, s.calls.items.length = call + 1 ∧
          ((∃ fault, (s.memory.allocate 3 .literal).1 = .error fault ∧
            (∀ id, ¬ s.Uses id (.literal call place)) ∧
            i.advance 38 r = .ended (.error (.fault (.memory fault) place)) s) ∨
          ∃ id t, i.advance 38 r =
              .underWay ⟨⟨rest, m.pending.operands.push (.pointer ⟨id, 0, .char⟩)⟩, m.bases⟩ t ∧
            IsPristine i r 38 call place [97, 98] id t) := by
  obtain ⟨program, hcompile, hliteral, hget⟩ := exists_stringLiteral?_rewrittenLiteral
  obtain ⟨m, place, rest, hrun, hjob⟩ := Run.exists_of_stringLiteral? hliteral
  exact ⟨program, m, _, place, rest, hcompile, hrun, hjob, hget,
    isPristine_of_evaluate .default [] .unlimited hcompile hrun hjob⟩

end BoundedC
