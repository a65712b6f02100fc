import ClassPatch.Code.Instruction
import ClassPatch.Proofs.Outcome

/-!
# Targets of instructions

`Instruction.map` renames the targets of an instruction. `Instruction.mapTargets`, which may fail
at a target, is `map` wherever it succeeds.
-/

namespace ClassPatch.Instruction

variable {ρ σ τ ε : Type}

/-- Renames the targets. -/
def map (f : σ → τ) : Instruction σ → Instruction τ
  | push value => push value
  | load kind slot => load kind slot
  | store kind slot => store kind slot
  | increment slot delta => increment slot delta
  | jump kind target => jump kind (f target)
  | tableSwitch low high default targets => tableSwitch low high (f default) (targets.map f)
  | lookupSwitch default cases =>
    lookupSwitch (f default) (cases.map fun (key, target) => (key, f target))
  | field access owner name descriptor => field access owner name descriptor
  | invoke kind owner name descriptor ofInterface => invoke kind owner name descriptor ofInterface
  | invokeDynamic index name descriptor => invokeDynamic index name descriptor
  | typeUse use className => typeUse use className
  | newPrimitives code => newPrimitives code
  | newArrays className dimensions => newArrays className dimensions
  | leave result => leave result
  | ret slot => ret slot
  | plain opcode => plain opcode

@[simp] theorem targets_map (f : σ → τ) (i : Instruction σ) :
    (i.map f).targets = i.targets.map f := by
  cases i <;> simp [map, targets]

@[simp] theorem isTerminal_map (f : σ → τ) (i : Instruction σ) :
    (i.map f).isTerminal = i.isTerminal := by
  cases i with
  | jump kind target => cases kind <;> rfl
  | _ => rfl

@[simp] theorem map_map (f : ρ → σ) (g : σ → τ) (i : Instruction ρ) :
    (i.map f).map g = i.map (g ∘ f) := by
  cases i <;> simp [map]

theorem map_eq_push {f : σ → τ} {i : Instruction σ} {value : Value} :
    i.map f = .push value ↔ i = .push value := by
  cases i <;> simp [map]

theorem map_eq_leave {f : σ → τ} {i : Instruction σ} {result : Option ValueKind} :
    i.map f = .leave result ↔ i = .leave result := by
  cases i <;> simp [map]

theorem map_congr {f g : σ → τ} {i : Instruction σ} (h : ∀ l ∈ i.targets, f l = g l) :
    i.map f = i.map g := by
  cases i with
  | lookupSwitch default cases =>
    simp only [targets, List.mem_cons, List.mem_map, forall_eq_or_imp, forall_exists_index,
      and_imp] at h
    simp only [map, lookupSwitch.injEq, h.1, true_and]
    exact List.map_congr_left fun row hmem => by rw [h.2 _ row hmem rfl]
  | _ => simp_all [map, targets]

theorem mapTargets_eq_map {f : σ → Except ε τ} {g : σ → τ} {i : Instruction σ}
    (h : ∀ l ∈ i.targets, f l = .ok (g l)) : i.mapTargets f = .ok (i.map g) := by
  cases i with
  | jump kind target => simp_all [mapTargets, map, targets]
  | tableSwitch low high default targets =>
    simp only [Instruction.targets, List.mem_cons, forall_eq_or_imp] at h
    simp only [mapTargets, map, h.1, Except.mapM_eq_map h.2]
    rfl
  | lookupSwitch default cases =>
    simp only [targets, List.mem_cons, forall_eq_or_imp] at h
    have hcases : cases.mapM (fun c => do return (c.1, ← f c.2)) =
        .ok (cases.map fun c => (c.1, g c.2)) := by
      refine Except.mapM_eq_map fun c hmem => ?_
      simp [h.2 c.2 (List.mem_map_of_mem (f := (·.2)) hmem)]
    simp only [mapTargets, map, h.1]
    exact Except.bind_eq_ok.mpr ⟨_, rfl, Except.bind_eq_ok.mpr ⟨_, hcases, rfl⟩⟩
  | _ => rfl

/-- Where the targets can be replaced, each of them has an image. -/
theorem exists_of_mapTargets {f : σ → Except ε τ} {i : Instruction σ} {j : Instruction τ}
    (h : i.mapTargets f = .ok j) : ∀ l ∈ i.targets, ∃ t, f l = .ok t := by
  cases i with
  | jump kind target =>
    obtain ⟨t, ht, -⟩ := Except.bind_eq_ok.mp h
    simpa [targets] using ⟨t, ht⟩
  | tableSwitch low high default targets =>
    obtain ⟨t, ht, h⟩ := Except.bind_eq_ok.mp h
    obtain ⟨ts, hts, -⟩ := Except.bind_eq_ok.mp h
    simpa [Instruction.targets] using ⟨⟨t, ht⟩, Except.exists_of_mapM hts⟩
  | lookupSwitch default cases =>
    obtain ⟨t, ht, h⟩ := Except.bind_eq_ok.mp h
    obtain ⟨ts, hts, -⟩ := Except.bind_eq_ok.mp h
    simp only [targets, List.mem_cons, List.mem_map, forall_eq_or_imp]
    refine ⟨⟨t, ht⟩, ?_⟩
    rintro l ⟨⟨key, target⟩, hmem, rfl⟩
    obtain ⟨row, hrow⟩ := Except.exists_of_mapM hts _ hmem
    obtain ⟨t, ht, -⟩ := Except.bind_eq_ok.mp hrow
    exact ⟨t, ht⟩
  | _ => simp [targets]

/-- Replaced targets are renamed by any function that agrees with the replacement. -/
theorem eq_map_of_mapTargets {f : σ → Except ε τ} {g : σ → τ} {i : Instruction σ}
    {j : Instruction τ} (h : i.mapTargets f = .ok j)
    (hg : ∀ l t, f l = .ok t → g l = t) : j = i.map g := by
  have hall : ∀ l ∈ i.targets, f l = .ok (g l) := by
    intro l hl
    obtain ⟨t, ht⟩ := exists_of_mapTargets h l hl
    rw [ht, hg l t ht]
  rw [mapTargets_eq_map hall] at h
  exact (Except.ok.inj h).symm

end ClassPatch.Instruction
