import CoreWar.Proofs.Configuration.Checklist
import CoreWar.Proofs.Configuration.WellFormed

/-!
# The costs that a configuration sets

Every entry of the object of costs names an operation, in any case of its letters, and
gives it a cost.  So several entries may name one operation.  They are entered in the
order of their names, and each takes the place of what was entered before, so the last
of them decides (`cost_of_ofJson`).  An operation that no entry names costs one cycle.
-/

namespace CoreWar
namespace Configuration

open Checks

/-- A name stands for an operation: in capitals it is the operation's own name. -/
def NamesOpcode (name : String) (op : Opcode) : Prop :=
  String.ofList (Text.upper name.toList) = op.name

/-- An entry gives a cost to the operation that it names. -/
structure SetsCost (costs : Members) (name : String) (op : Opcode) (n : Nat) : Prop where
  names : NamesOpcode name op
  value : Json.field? costs name = some (.number (.integer n))
  pos : 1 ≤ n
  le : n ≤ 0xFFFFFFFF

variable {o costs : Members} {name : String} {names : List String} {op : Opcode} {n : Nat}
  {t t' : CostTable}

theorem NamesOpcode.unique {op' : Opcode} (h : NamesOpcode name op) (h' : NamesOpcode name op') :
    op = op' := by
  have hname : op.name = op'.name := h.symm.trans h'
  have hsame := congrArg Opcode.ofName? hname
  rwa [Opcode.ofName?_name, Opcode.ofName?_name, Option.some_inj] at hsame

/-! ## One entry -/

theorem field?_of_readInt {field : String} {least most : Int}
    {x : { n : Int // least ≤ n ∧ n ≤ most }} (h : readInt o field least most = .ok x) :
    Json.field? o field = some (.number (.integer x)) := by
  have hdecides := decides_readInt o field least most
  have hall := hdecides.exists_eq_ok_iff.mp ⟨x, h⟩
  simp only [intChecks, allHold_cons] at hall
  obtain ⟨-, ⟨n, hn⟩, -⟩ := hall
  have hx : x.val = n := by
    rw [hdecides.of_eq_ok h]
    simp [intOf, hn]
  rw [hn, hx]

/-- Entering a cost changes the cost of the named operation alone. -/
theorem exists_of_addCost (h : addCost costs t name = .ok t') :
    ∃ op n, SetsCost costs name op n ∧
      ∀ other, t'.cost other = if op = other then n else t.cost other := by
  unfold addCost at h
  dsimp only at h
  split at h
  next => cases h
  next op hop =>
    split at h
    next c hc =>
      cases h
      obtain ⟨⟨x, hlow, hhigh⟩, hx, rfl⟩ := map_eq_ok.mp hc
      obtain ⟨n, rfl⟩ := Int.eq_ofNat_of_zero_le (show 0 ≤ x by omega)
      exact ⟨op, n, ⟨Opcode.eq_name_of_ofName? hop, field?_of_readInt hx, by omega, by omega⟩,
        fun other => CostTable.cost_set t op other _⟩
    next => cases h

/-! ## All entries -/

/-- What a table holds after entries in the order of their names: for each operation the cost of
the last entry that names it, and what it held before if there is none. -/
theorem cost_of_foldlM (hsorted : names.Pairwise (· < ·))
    (h : names.foldlM (addCost costs) t = .ok t') :
    (∀ name ∈ names, ∃ op n, SetsCost costs name op n ∧
      ((∀ later ∈ names, name < later → ¬NamesOpcode later op) → t'.cost op = n)) ∧
    ∀ op, (∀ name ∈ names, ¬NamesOpcode name op) → t'.cost op = t.cost op := by
  induction names generalizing t with
  | nil =>
      cases h
      exact ⟨by simp, fun _ _ => rfl⟩
  | cons first rest ih =>
      obtain ⟨hfirst, hsorted⟩ := List.pairwise_cons.mp hsorted
      rw [List.foldlM_cons] at h
      obtain ⟨t₁, ht₁, hrest⟩ := bind_eq_ok.mp h
      obtain ⟨op, n, hsets, hcost⟩ := exists_of_addCost ht₁
      obtain ⟨hnamed, hkept⟩ := ih hsorted hrest
      constructor
      · intro name hname
        obtain rfl | hname := List.mem_cons.mp hname
        · refine ⟨op, n, hsets, fun hlast => ?_⟩
          rw [hkept op fun later hlater =>
            hlast later (List.mem_cons_of_mem _ hlater) (hfirst later hlater), hcost, if_pos rfl]
        · obtain ⟨op, n, hsets, hcost⟩ := hnamed name hname
          exact ⟨op, n, hsets, fun hlast => hcost fun later hlater =>
            hlast later (List.mem_cons_of_mem _ hlater)⟩
      · intro other hother
        rw [List.forall_mem_cons] at hother
        have hne : op ≠ other := by
          rintro rfl
          exact hother.1 hsets.names
        rw [hkept other hother.2, hcost, if_neg hne]

theorem foldlM_of_readCosts (h : readCosts o = .ok t) :
    ((Json.entries (costMembers o)).map Prod.fst).foldlM (addCost (costMembers o)) .ones =
      .ok t := by
  unfold readCosts at h
  unfold costMembers
  split at h
  next hnone => rw [hnone]; exact h
  next hnull => rw [hnull]; exact h
  next costs hcosts => rw [hcosts]; exact h
  next => cases h

/-- Each entry of a configuration's costs gives a cost to the operation that it names, and it takes
effect unless an entry with a later name is for the same operation; an operation that no entry names
costs one cycle. -/
theorem cost_of_ofJson {c : Configuration} (h : ofJson (.object o) = .ok c) :
    (∀ name, Json.field? (costMembers o) name ≠ none →
      ∃ op n, SetsCost (costMembers o) name op n ∧
        ((∀ later, Json.field? (costMembers o) later ≠ none → name < later →
          ¬NamesOpcode later op) → c.rules.costs.cost op = n)) ∧
    ∀ op, (∀ name, Json.field? (costMembers o) name ≠ none → ¬NamesOpcode name op) →
      c.rules.costs.cost op = 1 := by
  obtain ⟨o', ho, hread⟩ := readFrom_of_ofJson h
  cases ho
  obtain ⟨hnamed, hkept⟩ := cost_of_foldlM (Json.pairwise_names_entries (costMembers o))
    (foldlM_of_readCosts hread.costs)
  simp only [Json.mem_names_entries_iff] at hnamed hkept
  refine ⟨hnamed, fun op hop => ?_⟩
  rw [hkept op hop, CostTable.cost_ones]

/-- The members of a duel whose costs name one operation twice. -/
def twoCasesMembers : Members :=
  ("cycles", .object [("ADD", .number (.integer 3)), ("add", .number (.integer 7))]) :: duelMembers

/-- Of the two entries the one in small letters decides, and other operations keep their cost. -/
theorem cost_of_ofJson_two_cases :
    ∃ c, ofJson (.object twoCasesMembers) = .ok c ∧ c.rules.costs.cost .add = 7 ∧
      c.rules.costs.cost .nop = 1 := by
  obtain ⟨c, hc⟩ : ∃ c, ofJson (.object twoCasesMembers) = .ok c := ⟨_, rfl⟩
  have hnames : ∀ name, Json.field? (costMembers twoCasesMembers) name ≠ none →
      name = "ADD" ∨ name = "add" := by
    intro name hname
    have hmem : name ∈ ["ADD", "add"] := Json.field?_ne_none_iff.mp hname
    simpa using hmem
  have hcapitals : NamesOpcode "ADD" .add := rfl
  have hadd : NamesOpcode "add" .add := rfl
  obtain ⟨hnamed, hkept⟩ := cost_of_ofJson hc
  refine ⟨c, hc, ?_, hkept .nop fun name hname => ?_⟩
  · have hseven : Json.field? (costMembers twoCasesMembers) "add" =
        some (.number (.integer 7)) := rfl
    obtain ⟨op, n, hsets, hcost⟩ := hnamed "add" (by simp [hseven])
    obtain rfl := hadd.unique hsets.names
    have hvalue := hsets.value
    rw [hseven] at hvalue
    simp only [Option.some.injEq, Json.number.injEq, Json.Number.integer.injEq] at hvalue
    rw [hcost fun later hlater hlt => ?_]
    · omega
    · obtain rfl | rfl := hnames later hlater
      · exact absurd hlt (by decide)
      · exact absurd hlt (String.lt_irrefl _)
  · obtain rfl | rfl := hnames name hname
    · exact fun hnop => absurd (hcapitals.unique hnop) (by decide)
    · exact fun hnop => absurd (hadd.unique hnop) (by decide)

/-- An entry may be without effect: here the entry in capitals gives way to the other one. -/
theorem entry_without_effect :
    ∃ c, ofJson (.object twoCasesMembers) = .ok c ∧
      SetsCost (costMembers twoCasesMembers) "ADD" .add 3 ∧ c.rules.costs.cost .add ≠ 3 :=
  ⟨_, rfl, ⟨rfl, rfl, by decide, by decide⟩, by decide⟩

end Configuration
end CoreWar
