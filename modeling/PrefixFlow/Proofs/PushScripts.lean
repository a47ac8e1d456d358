import PrefixFlow.Proofs.HonestWitness
import PrefixFlow.Proofs.ProgramIdentity
import PrefixFlow.Proofs.RunAccounts

/-!
# Scripts that only push

What a script of pushes leaves on an empty stack are its items in order, whichever of the forms each
of them was pushed in, and whether the script is executed as it was built or read back from its
bytes (`execute_pushScript`). So a witness can be given as a stack or as a script:

* the script of a witness leaves the items of the witness, and that of a message those of the
  message, though the one pushes byte strings and the other numbers;
* in front of any other script, the pushes stand for the stack that they leave
  (`execute_pushScript_append`).
-/

namespace PrefixFlow

/-- What is pushed: a number, as its script number, or a byte string. -/
inductive Pushed
  | number (v : Int)
  | bytes (d : Bytes)
  deriving Repr, DecidableEq

namespace Pushed

/-- The instruction that pushes it. -/
def instruction : Pushed → Instruction
  | number v => .pushNumber v
  | bytes d => .pushBytes d

/-- The item that it leaves. -/
def item : Pushed → Bytes
  | number v => encodeNum v
  | bytes d => d

theorem step_instruction (ctx : Context) (p : Pushed) :
    step ctx p.instruction = Machine.push p.item := by
  cases p with
  | number v => exact step_pushNumber v
  | bytes d => exact step_pushBytes d

theorem regular_instruction (p : Pushed) : p.instruction.Regular := by
  cases p with
  | number v => exact regular_pushNumber v
  | bytes d => exact regular_pushBytes d

theorem hasBytes_instruction_iff (p : Pushed) :
    p.instruction.HasBytes ↔ p.item.length < 2 ^ 32 := by
  cases p with
  | number v => exact hasBytes_pushNumber_iff
  | bytes d => exact hasBytes_pushBytes_iff

end Pushed

/-- The script that pushes one thing after the other. -/
def pushScript (ps : List Pushed) : Script := ps.map Pushed.instruction

variable {ctx : Context} {ps : List Pushed} {s t : List Bytes} {as : Bytes}

/-! ## Pushes alone -/

theorem exists_bytes_pushScript (hlen : ∀ p ∈ ps, p.item.length ≤ maxItemSize) :
    ∃ bs, (pushScript ps).bytes = .ok bs := by
  refine exists_bytes fun i hi => ?_
  obtain ⟨p, hp, rfl⟩ := List.mem_map.mp hi
  have hitem := hlen p hp
  simp only [maxItemSize] at hitem
  exact p.hasBytes_instruction_iff.mpr (by omega)

/-- The bytes are read back as the instructions that were written. -/
theorem parse_pushScript (hbytes : (pushScript ps).bytes = .ok as) :
    Script.parse as = .ok (pushScript ps) := by
  have hregular : Script.Regular (pushScript ps) := by
    intro i hi
    obtain ⟨p, -, rfl⟩ := List.mem_map.mp hi
    exact p.regular_instruction
  exact parse_bytes (hregular.wellFormed hbytes) hbytes

theorem runs_pushScript (ctx : Context) (hlen : ∀ p ∈ ps, p.item.length ≤ maxItemSize)
    (hroom : ps.length + s.length + t.length ≤ maxStackSize) :
    Runs ctx (pushScript ps) ⟨s, t⟩ ⟨(ps.map Pushed.item).reverse ++ s, t⟩ := by
  -- along the pushes, while the stack beneath the next one grows
  induction ps generalizing s with
  | nil => exact Runs.nil
  | cons p ps ih =>
    obtain ⟨hp, hrest⟩ := List.forall_mem_cons.mp hlen
    rw [List.length_cons] at hroom
    have hstep : step ctx p.instruction ⟨s, t⟩ = .ok () ⟨p.item :: s, t⟩ := by
      rw [p.step_instruction, push_ok hp]
    have hdepth : (⟨p.item :: s, t⟩ : Machine).depth ≤ maxStackSize := by
      simp only [Machine.depth, List.length_cons]
      omega
    have hruns := ih (s := p.item :: s) hrest (by rw [List.length_cons]; omega)
    rw [List.map_cons, List.reverse_cons, List.append_assoc]
    exact hruns.cons hstep hdepth

/-- On an empty stack, that is the machine that the items start an execution on. -/
theorem runs_pushScript_ofWitness (ctx : Context)
    (hlen : ∀ p ∈ ps, p.item.length ≤ maxItemSize) (hroom : ps.length ≤ maxStackSize) :
    Runs ctx (pushScript ps) (.ofWitness []) (.ofWitness (ps.map Pushed.item)) := by
  have hruns := runs_pushScript ctx (s := []) (t := []) hlen hroom
  rwa [List.append_nil] at hruns

/-- A script of pushes leaves its items, and its bytes are those of the same script. -/
theorem execute_pushScript (ctx : Context) (hlen : ∀ p ∈ ps, p.item.length ≤ maxItemSize)
    (hroom : ps.length ≤ maxStackSize) :
    ∃ bs r, (pushScript ps).bytes = .ok bs ∧ Script.parse bs = .ok (pushScript ps) ∧
      execute ctx (pushScript ps) [] = .ok r ∧ r.failedAt = none ∧
      r.finalStack = ps.map Pushed.item := by
  obtain ⟨bs, hbytes⟩ := exists_bytes_pushScript hlen
  obtain ⟨r, peak, hexec, hend, hstack, -, -⟩ :=
    execute_of_runs hbytes (runs_pushScript_ofWitness ctx hlen hroom)
  refine ⟨bs, r, hbytes, parse_pushScript hbytes, hexec, hend, ?_⟩
  rw [hstack, Machine.ofWitness, List.reverse_reverse]

/-! ## Pushes in front of a script -/

/-- What is refused behind a script with a byte form is refused for its own sake. -/
theorem bytes_append_of_error {a b : Script} {e : Error} (ha : a.bytes = .ok as)
    (hb : b.bytes = .error e) : Script.bytes (a ++ b) = .error e := by
  obtain ⟨parts, hparts, -⟩ := bind_eq_ok_iff.mp ha
  have hb' : b.mapM Instruction.bytes = .error e := by
    rcases bind_eq_error_iff.mp hb with hmap | ⟨parts', -, hjoin⟩
    · exact hmap
    · cases hjoin
  rw [Script.bytes, List.mapM_append, hparts, hb']
  rfl

/-- How an execution ends: its verdict, and the stack that it leaves. -/
def Execution.ending (r : Execution) : Bool × ScriptError × List Bytes :=
  (r.success, r.error, r.finalStack)

/-- Neither the script that an execution is told of nor the instructions before it show in the
end. -/
theorem Halt.ending_after {executed peak size size' : Nat} {a b : Script} (h : Halt) :
    ((h.after executed peak).toExecution a size).ending = (h.toExecution b size').ending := by
  cases h with
  | finished => rfl
  | failed => rfl

/-- Whatever runs to the stack of a witness may stand for the witness. -/
theorem execute_append_of_runs {a b : Script} {witness start : List Bytes}
    (ha : a.bytes = .ok as) (hruns : Runs ctx a (.ofWitness start) (.ofWitness witness)) :
    (execute ctx (a ++ b) start).map Execution.ending =
      (execute ctx b witness).map Execution.ending := by
  cases hb : b.bytes with
  | error e =>
    have hab := bytes_append_of_error ha hb
    rw [execute, execute, Script.byteSize, Script.byteSize, hab, hb]
    rfl
  | ok bs =>
    obtain ⟨peak, hrun⟩ := hruns.finished 0 0
    have hhalt : runFrom ctx (a ++ b) (.ofWitness start) 0 0 =
        (runFrom ctx b (.ofWitness witness) 0 0).after (0 + a.length) peak := by
      rw [runFrom_append, hrun]
      exact runFrom_eq_after ctx b _ _ _
    rw [execute_eq (bytes_append ha hb), execute_eq hb, hhalt]
    exact congrArg Except.ok (Halt.ending_after _)

theorem execute_pushScript_append (ctx : Context) (script : Script)
    (hlen : ∀ p ∈ ps, p.item.length ≤ maxItemSize) (hroom : ps.length ≤ maxStackSize) :
    (execute ctx (pushScript ps ++ script) []).map Execution.ending =
      (execute ctx script (ps.map Pushed.item)).map Execution.ending := by
  obtain ⟨bs, hbytes⟩ := exists_bytes_pushScript hlen
  exact execute_append_of_runs hbytes (runs_pushScript_ofWitness ctx hlen hroom)

/-! ## Witnesses and messages -/

section Witness

variable {signature data : Bytes} {x nonce limb : Int} {c : Config} {w items : List Bytes}
  {ns : List Nat}

/-- The items of a message are as many as it has half bytes, and fit. -/
theorem fits_of_messageNibbles? (hns : messageNibbles? data limb = .ok ns) :
    ns.length = 2 * data.length ∧ ∀ item ∈ nibbleItems ns, item.length ≤ maxItemSize := by
  obtain ⟨⟨hlimb, hmod⟩, rfl⟩ := messageNibbles?_eq_ok_iff.mp hns
  have hdvd : limb.toNat ∣ data.length := by
    have hdvd : ((limb.toNat : Nat) : Int) ∣ data.length := by
      rw [Int.toNat_of_nonneg (by omega)]
      exact Int.dvd_of_emod_eq_zero hmod
    exact Int.natCast_dvd_natCast.mp hdvd
  refine ⟨length_messageNibbles (by omega) hdvd, ?_⟩
  intro item hitem
  exact length_of_mem_nibbleItems (fun _ => lt_of_mem_messageNibbles) hitem

/-- A witness has twenty-five items that fit, if its signature does. -/
theorem fits_of_witnessItems? (hsignature : signature.length ≤ maxItemSize)
    (hw : witnessItems? signature x nonce c = .ok w) :
    w.length = 25 ∧ ∀ item ∈ w, item.length ≤ maxItemSize := by
  obtain ⟨-, hlimb, rfl⟩ := witnessItems?_eq_ok_iff.mp hw
  have hns : messageNibbles? (message x.toNat nonce.toNat) c.limbLength = .ok _ :=
    messageNibbles?_eq_ok_iff.mpr ⟨by rw [length_message]; exact hlimb, rfl⟩
  obtain ⟨hcount, hfit⟩ := fits_of_messageNibbles? hns
  rw [length_message] at hcount
  refine ⟨?_, ?_⟩
  · rw [List.length_append, nibbleItems, List.length_map, hcount]
    rfl
  · intro item hitem
    rcases List.mem_append.mp hitem with hitem | hitem
    · exact hfit item hitem
    · rw [List.mem_singleton.mp hitem]
      exact hsignature

theorem witnessScript?_eq (hw : witnessItems? signature x nonce c = .ok w) :
    witnessScript? signature x nonce c = .ok (pushScript (w.map .bytes)) := by
  rw [witnessScript?, hw, pushScript, List.map_map]
  rfl

theorem map_item_bytes (w : List Bytes) : (w.map Pushed.bytes).map Pushed.item = w := by
  rw [List.map_map]
  exact List.map_id w

/-- A message is refused as a script where it is refused as items. -/
theorem pushMessage?_eq_error_iff {e : Error} :
    pushMessage? data limb = .error e ↔ messageItems? data limb = .error e := by
  rw [pushMessage?, messageItems?]
  cases messageNibbles? data limb with
  | ok ns =>
    constructor
    · intro h
      cases h
    · intro h
      cases h
  | error e' =>
    constructor
    · intro h
      cases h
      rfl
    · intro h
      cases h
      rfl

theorem execute_pushMessage (ctx : Context) (hdata : 2 * data.length ≤ maxStackSize)
    (hitems : messageItems? data limb = .ok items) :
    ∃ script r, pushMessage? data limb = .ok script ∧ execute ctx script [] = .ok r ∧
      r.failedAt = none ∧ r.finalStack = items := by
  obtain ⟨ns, hns, hitems⟩ := bind_eq_ok_iff.mp hitems
  cases hitems
  obtain ⟨hcount, hfit⟩ := fits_of_messageNibbles? hns
  have hpushed : (ns.map fun n : Nat => Pushed.number n).map Pushed.item = nibbleItems ns := by
    rw [List.map_map]
    rfl
  have hscript : pushMessage? data limb =
      .ok (pushScript (ns.map fun n : Nat => Pushed.number n)) := by
    rw [pushMessage?, hns, pushScript, List.map_map]
    rfl
  have hlen : ∀ p ∈ ns.map fun n : Nat => Pushed.number n, p.item.length ≤ maxItemSize := by
    rw [← hpushed] at hfit
    exact List.forall_mem_map.mp hfit
  obtain ⟨bs, r, -, -, hexec, hend, hstack⟩ := execute_pushScript ctx hlen (by
    rw [List.length_map, hcount]
    exact hdata)
  rw [hpushed] at hstack
  exact ⟨_, r, hscript, hexec, hend, hstack⟩

end Witness

/-- Scripts of pushes and the stacks that they leave are the same: pushes leave their items, the
script of a witness the witness, that of a message the items of the message, and a script that is
run behind the script of a witness ends as it does on the witness. -/
theorem push_scripts_leave_items :
    (∀ (ctx : Context) (ps : List Pushed), ps.length ≤ 1000 →
      (∀ p ∈ ps, p.item.length ≤ 520) →
      ∃ bs r, (pushScript ps).bytes = .ok bs ∧ Script.parse bs = .ok (pushScript ps) ∧
        execute ctx (pushScript ps) [] = .ok r ∧ r.failedAt = none ∧
        r.finalStack = ps.map Pushed.item) ∧
    (∀ (ctx : Context) (signature : Bytes) (x nonce : Nat) (c : Config), x < 2 ^ 32 →
      nonce < 2 ^ 64 → signature.length ≤ 520 → 1 ≤ c.limbLength → 12 % c.limbLength = 0 →
      ∃ ws w r, witnessScript? signature x nonce c = .ok ws ∧
        witnessItems? signature x nonce c = .ok w ∧ execute ctx ws [] = .ok r ∧
        r.failedAt = none ∧ r.finalStack = w ∧
        ∀ script, (execute ctx (ws ++ script) []).map Execution.ending =
          (execute ctx script w).map Execution.ending) ∧
    ∀ (ctx : Context) (data : Bytes) (limb : Int), data.length ≤ 500 →
      (∀ e, pushMessage? data limb = .error e ↔ messageItems? data limb = .error e) ∧
      ∀ items, messageItems? data limb = .ok items →
        ∃ script r, pushMessage? data limb = .ok script ∧ execute ctx script [] = .ok r ∧
          r.failedAt = none ∧ r.finalStack = items := by
  refine ⟨?_, ?_, ?_⟩
  · intro ctx ps hroom hlen
    exact execute_pushScript ctx hlen hroom
  · intro ctx signature x nonce c hx hnonce hsignature hlimb hmod
    obtain ⟨w, hw⟩ : ∃ w, witnessItems? signature x nonce c = .ok w :=
      ⟨_, witnessItems?_eq_ok_iff.mpr ⟨by omega, ⟨hlimb, hmod⟩, rfl⟩⟩
    obtain ⟨hcount, hfit⟩ := fits_of_witnessItems? hsignature hw
    have hlen : ∀ p ∈ w.map Pushed.bytes, p.item.length ≤ maxItemSize :=
      List.forall_mem_map.mpr hfit
    have hroom : (w.map Pushed.bytes).length ≤ maxStackSize := by
      rw [List.length_map, hcount]
      decide
    obtain ⟨bs, r, -, -, hexec, hend, hstack⟩ := execute_pushScript ctx hlen hroom
    have hbehind (script : Script) := execute_pushScript_append ctx script hlen hroom
    rw [map_item_bytes] at hstack
    simp only [map_item_bytes] at hbehind
    exact ⟨_, w, r, witnessScript?_eq hw, hw, hexec, hend, hstack, hbehind⟩
  · intro ctx data limb hdata
    refine ⟨fun e => pushMessage?_eq_error_iff, ?_⟩
    intro items hitems
    have hroom : 2 * data.length ≤ maxStackSize := by
      simp only [maxStackSize]
      omega
    exact execute_pushMessage ctx hroom hitems

/-- Numbers with an opcode and without, no bytes and a zero byte, and a length of one byte and of
two. The first stage program ends on the script of a witness as on the witness. -/
theorem push_scripts_leave_items_of_forms : ∃ bs r ws w p script r',
    (pushScript [.number 16, .number (-2), .bytes [], .bytes [0], .bytes (List.replicate 80 7),
      .bytes (List.replicate 300 7)]).bytes = .ok bs ∧
    Script.parse bs = .ok (pushScript [.number 16, .number (-2), .bytes [], .bytes [0],
      .bytes (List.replicate 80 7), .bytes (List.replicate 300 7)]) ∧
    execute {} (pushScript [.number 16, .number (-2), .bytes [], .bytes [0],
      .bytes (List.replicate 80 7), .bytes (List.replicate 300 7)]) [] = .ok r ∧
    r.finalStack = [encodeNum 16, encodeNum (-2), [], [0], List.replicate 80 7,
      List.replicate 300 7] ∧
    witnessScript? sampleSignature (150 : Nat) (7 : Nat) {} = .ok ws ∧
    witnessItems? sampleSignature (150 : Nat) (7 : Nat) {} = .ok w ∧
    compile? .lowerBound sampleKey samplePrefix 16 {} = .ok p ∧
    (execute {} (ws ++ p.script) []).map Execution.ending =
      (execute {} p.script w).map Execution.ending ∧
    pushMessage? [1, 2, 3, 4] 2 = .ok script ∧ execute {} script [] = .ok r' ∧
    messageItems? [1, 2, 3, 4] 2 = .ok r'.finalStack := by
  obtain ⟨hpushes, hwitness, hmessage⟩ := push_scripts_leave_items
  have hlen : ∀ p ∈ [Pushed.number 16, .number (-2), .bytes [], .bytes [0],
      .bytes (List.replicate 80 7), .bytes (List.replicate 300 7)], p.item.length ≤ 520 := by
    decide +kernel
  obtain ⟨bs, r, hbytes, hparse, hexec, -, hstack⟩ := hpushes {} _ (by decide) hlen
  obtain ⟨ws, w, -, hws, hw, -, -, -, hbehind⟩ := hwitness {} sampleSignature 150 7 {}
    (by decide) (by decide) (by decide +kernel) (by decide) (by decide)
  obtain ⟨p, -, hp, -⟩ := accepted_of_150
  have hitems : messageItems? [1, 2, 3, 4] 2 = .ok _ :=
    bind_eq_ok_iff.mpr ⟨_, messageNibbles?_eq_ok_iff.mpr ⟨by decide, rfl⟩, rfl⟩
  obtain ⟨script, r', hscript, hexec', -, hstack'⟩ :=
    (hmessage {} [1, 2, 3, 4] 2 (by decide)).2 _ hitems
  exact ⟨bs, r, ws, w, p, script, r', hbytes, hparse, hexec, hstack, hws, hw, hp,
    hbehind p.script, hscript, hexec', by rw [hstack', hitems]⟩

end PrefixFlow
