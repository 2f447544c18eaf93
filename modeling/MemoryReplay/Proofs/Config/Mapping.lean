import MemoryReplay.CommandLine.Program
import MemoryReplay.FileStore.Tree
import MemoryReplay.Proofs.Address.Permutation
import MemoryReplay.Proofs.Pattern.Columnwise
import MemoryReplay.Proofs.Pattern.Stage
import MemoryReplay.Proofs.TraceFile.RoundTrip

/-!
# Mapped traces

A mapping that moves nothing is not applied, and the requests of the workload are taken as they
are. To apply it would make no difference: it leaves every address alone, and the stamps that it
would take away are not there, because every workload makes fresh requests.

- `AllFresh`: a trace without stamps. `Workload.allFresh_of_synthesize`, `TraceFile.allFresh_of_read`,
  `Config.allFresh_of_rawTrace`: the traces of workloads.
- `BitPermutation.applyAll_of_isIdentity`: what is not done to them.
- `Config.exists_of_validate`, `Mapping.exists_permutation`: a configuration that passes its check
  has the mapping that it asks for.
- `Config.trace_eq_map`, `CommandLine.Program.loadTrace_eq_map`: the trace of a configuration with a
  mapping.
- `mapping_applied`: every trace is mapped, and keeps its requests apart.
-/

namespace MemoryReplay

/-! ### Workloads make fresh requests -/

/-- No request of a trace has been stamped. -/
def AllFresh (trace : List Request) : Prop := ∀ r ∈ trace, r = .fresh r.address r.direction

theorem Pattern.FreshAt.allFresh {trace : List Request} {addresses : List Nat}
    {direction : Direction} (h : FreshAt trace addresses direction) : AllFresh trace := by
  intro r hr
  have hfresh := h.fresh r hr
  obtain rfl : r.direction = direction := congrArg Request.direction hfresh
  exact hfresh

theorem StageVariant.allFresh_of_generate {variant : StageVariant} {start : UInt64}
    {g : StageGeometry} {trace : List Request} (h : variant.generate start g = .ok trace) :
    AllFresh trace := by
  have hvalid := (of_check_eq_ok (check_of_generate h)).1
  obtain ⟨hend, -, rfl⟩ := (generate_eq_ok_iff hvalid).mp h
  exact (freshAt_requests hend).allFresh

theorem Workload.allFresh_of_synthesize {w : Workload} {trace : List Request}
    (h : w.synthesize = .ok (some trace)) : AllFresh trace := by
  cases w with
  | file => cases h
  | sequential start numElements elementSize burstSize direction =>
    have hmade := Outcome.map_some_eq_ok_iff.mp h
    exact ((Pattern.sequential_made _ _ _ _ _ rfl).freshAt _ hmade).allFresh
  | columnwise start numElements stride elementSize burstSize direction =>
    have hmade := Outcome.map_some_eq_ok_iff.mp h
    exact ((Pattern.columnwise_madeWhen rfl rfl rfl rfl).freshAt _ hmade).allFresh
  | strided start stride elements direction =>
    have hmade := Outcome.map_some_eq_ok_iff.mp h
    exact ((Pattern.strided_made _ _ _ _ rfl).freshAt _ hmade).allFresh
  | stage variant start geometry =>
    have hmade := Outcome.map_some_eq_ok_iff.mp h
    exact StageVariant.allFresh_of_generate hmade

namespace TraceFile

theorem allFresh_of_read {path : String} {bytes : List UInt8} {trace : List Request}
    (h : read path bytes = .ok trace) : AllFresh trace := by
  have hsame := (fresh_of_readLines h).trans (List.map_id trace).symm
  exact fun r hr => (List.map_inj_left.mp hsame r hr).symm

/-- What is read of a file with some content, or of one that refuses. -/
def ofContent (path : String) : Except DeviceError ByteArray → Except TraceError (List Request)
  | .ok bytes => read path bytes.toList
  | .error e => .error (.device path e)

theorem allFresh_of_content {path : String} {content : Except DeviceError ByteArray}
    {trace : List Request} (h : ofContent path content = .ok trace) : AllFresh trace := by
  cases content with
  | ok bytes => exact allFresh_of_read h
  | error e => cases h

theorem load_eq {m : Type → Type} [Monad m] [LawfulMonad m] [FileStore m] (path : String) :
    (load path : m _) = ofContent path <$> FileStore.read path := by
  unfold load
  rw [map_eq_pure_bind]
  refine bind_congr fun content => ?_
  cases content <;> rfl

end TraceFile

/-! ### A mapping that moves nothing -/

/-- Such a mapping leaves a trace without stamps as it is. -/
theorem BitPermutation.applyAll_of_isIdentity {p : BitPermutation} {trace : List Request}
    (h : p.isIdentity = true) (hfresh : AllFresh trace) : p.applyAll trace = trace := by
  unfold applyAll
  simp only [p.apply_of_isIdentity h]
  exact (List.map_congr_left fun r hr => (hfresh r hr).symm).trans (List.map_id trace)

/-- The address at a position of a mapped trace. -/
theorem BitPermutation.address_applyAll (p : BitPermutation) (raw : List Request) (i : Nat) :
    (p.applyAll raw)[i]?.map Request.address = (raw[i]?.map Request.address).map p.apply := by
  unfold applyAll
  rw [List.getElem?_map, Option.map_map, Option.map_map]
  rfl

section

variable {c : Config} {stored : Except TraceError (List Request)}
  (hstored : ∀ trace, stored = .ok trace → AllFresh trace)

include hstored

theorem Config.allFresh_of_rawTrace {trace : List Request} (h : c.rawTrace stored = .ok trace) :
    AllFresh trace := by
  unfold rawTrace at h
  split at h
  · cases h
  · cases h
  · next made hmade =>
    obtain rfl := Except.ok.inj h
    exact Workload.allFresh_of_synthesize hmade
  · split at h
    · obtain rfl := Except.ok.inj h
      exact hstored _ rfl
    · cases h

/-- A trace has its requests at their permuted addresses, whether or not the permutation is
applied. -/
theorem Config.trace_eq_map {p : BitPermutation} (hp : c.mapping.permutation = .ok (some p)) :
    c.trace stored = (c.rawTrace stored).map p.applyAll := by
  unfold Config.trace
  rw [hp]
  dsimp only
  split
  · next hidentity =>
    cases hraw : c.rawTrace stored with
    | error fault => rfl
    | ok raw =>
      have hsame := p.applyAll_of_isIdentity hidentity (allFresh_of_rawTrace hstored hraw)
      exact congrArg Except.ok hsame.symm
  · rfl

end

/-! ### The mapping of a configuration -/

/-- A configuration that passes its check passes those of its mapping and of its memory. -/
theorem Config.exists_of_validate {c : Config} (h : c.validate = .ok ()) :
    (∃ permutation, c.mapping.permutation = .ok permutation) ∧ c.memory.validate = .ok () := by
  unfold validate at h
  obtain ⟨permutation, hpermutation, h⟩ := Outcome.bind_eq_ok_iff.mp h
  obtain ⟨_, -, h⟩ := Outcome.bind_eq_ok_iff.mp h
  refine ⟨⟨permutation, hpermutation⟩, ?_⟩
  cases hmemory : c.memory.validate with
  | error e =>
    rw [hmemory] at h
    cases h
  | ok _ => rfl

/-- A mapping with a preset or a table has a permutation, if it has no fault. -/
theorem Mapping.exists_permutation {m : Mapping} {permutation : Option BitPermutation}
    (hconfigured : m.preset ≠ none ∨ m.table ≠ none) (h : m.permutation = .ok permutation) :
    ∃ p, permutation = some p := by
  unfold Mapping.permutation at h
  split at h
  · cases h
  · exact ⟨_, (Except.ok.inj h).symm⟩
  · split at h
    · exact ⟨_, (Except.ok.inj h).symm⟩
    · cases h
  · next hpreset htable =>
    rcases hconfigured with hne | hne
    · exact absurd hpreset hne
    · exact absurd htable hne

/-- The configuration without its mapping. Its trace is that of the workload as it is. -/
def Config.unmapped (c : Config) : Config := { c with mapping := {} }

theorem Config.unmapped_trace (c : Config) (stored : Except TraceError (List Request)) :
    c.unmapped.trace stored = c.rawTrace stored := rfl

/-! ### The trace that a run replays -/

namespace CommandLine.Program

variable {m : Type → Type} [Monad m] [LawfulMonad m] [FileStore m] {c : Config}

/-- A run with a mapping replays what it would replay without one, mapped. -/
theorem loadTrace_eq_map {p : BitPermutation} (hp : c.mapping.permutation = .ok (some p)) :
    (loadTrace c : m _) = Except.map p.applyAll <$> loadTrace c.unmapped := by
  have hgiven : c.trace (.ok []) = (c.unmapped.trace (.ok [])).map p.applyAll := by
    rw [c.unmapped_trace]
    exact Config.trace_eq_map (by rintro _ ⟨⟩; exact nofun) hp
  have hread : ∀ content, c.trace (TraceFile.ofContent c.general.tracePath content) =
      (c.unmapped.trace (TraceFile.ofContent c.general.tracePath content)).map p.applyAll := by
    intro content
    rw [c.unmapped_trace]
    exact Config.trace_eq_map (fun _ => TraceFile.allFresh_of_content) hp
  have hworkload : c.unmapped.workload = c.workload := rfl
  have hpath : c.unmapped.general.tracePath = c.general.tracePath := rfl
  unfold loadTrace
  rw [hworkload, hpath, hgiven]
  cases c.workload with
  | file =>
    simp only [TraceFile.load_eq, bind_map_left, map_bind, map_pure, hread]
  | _ => exact (map_pure ..).symm

end CommandLine.Program

/-- **A mapping is applied to every trace.** A configuration with a mapping that passes its check
has a permutation, and its trace is that of the workload with each request at its permuted address,
or the workload's fault. There are as many requests as before, with the same directions, and two of
them share an address exactly if they did before. -/
theorem mapping_applied {m : Type → Type} [Monad m] [LawfulMonad m] [FileStore m] (c : Config)
    (hconfigured : c.mapping.preset ≠ none ∨ c.mapping.table ≠ none)
    (hvalid : c.validate = .ok ()) :
    ∃ p, c.mapping.permutation = .ok (some p) ∧
      (∀ path content, c.trace (TraceFile.ofContent path content) =
        (c.rawTrace (TraceFile.ofContent path content)).map p.applyAll) ∧
      (CommandLine.Program.loadTrace c : m _) =
        Except.map p.applyAll <$> CommandLine.Program.loadTrace c.unmapped ∧
      ∀ raw : List Request, (p.applyAll raw).length = raw.length ∧
        (p.applyAll raw).map Request.direction = raw.map Request.direction ∧
        ∀ i j : Nat,
          (p.applyAll raw)[i]?.map Request.address = (p.applyAll raw)[j]?.map Request.address ↔
            raw[i]?.map Request.address = raw[j]?.map Request.address := by
  obtain ⟨⟨permutation, hpermutation⟩, -⟩ := Config.exists_of_validate hvalid
  obtain ⟨p, rfl⟩ := Mapping.exists_permutation hconfigured hpermutation
  refine ⟨p, hpermutation, fun path content => ?_, ?_, fun raw => ⟨?_, ?_, fun i j => ?_⟩⟩
  · exact Config.trace_eq_map (fun _ => TraceFile.allFresh_of_content) hpermutation
  · exact CommandLine.Program.loadTrace_eq_map hpermutation
  · exact List.length_map ..
  · exact List.map_map
  · rw [p.address_applyAll, p.address_applyAll]
    exact (Option.map_injective p.apply_injective).eq_iff

/-- Two words are written, with a table that moves nothing. -/
def unmovedWords : Config where
  mapping := { table := some (List.range 64) }
  workload := .strided 0x20 1 2 .write

/-- They are replayed as they are, which is what the table makes of them. -/
theorem mapping_applied_unmovedWords :
    unmovedWords.mapping.table ≠ none ∧ unmovedWords.validate = .ok () ∧
    ∃ p, unmovedWords.mapping.permutation = .ok (some p) ∧ p.isIdentity = true ∧
      unmovedWords.trace (TraceFile.ofContent "" (.error .notFound)) =
        .ok (p.applyAll [.fresh 0x20 .write, .fresh 0x40 .write]) := by
  have htable : unmovedWords.mapping.table ≠ none := nofun
  have hvalid : unmovedWords.validate = .ok () := rfl
  obtain ⟨p, hp, htrace, -⟩ :=
    mapping_applied (m := StateM FileTree) unmovedWords (.inr htable) hvalid
  have hidentity : p.isIdentity = true := by
    obtain rfl := Option.some.inj (Except.ok.inj hp)
    decide
  exact ⟨htable, hvalid, p, hp, hidentity, htrace "" _⟩

end MemoryReplay
