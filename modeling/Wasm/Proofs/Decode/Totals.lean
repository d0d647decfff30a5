import Wasm.Proofs.Decode.Prefixes
import Wasm.Proofs.Decode.Progress

namespace Wasm

namespace Reader

variable {α : Type}

theorem yields_times_length (item : Reader α) (n : Nat) : Yields (·.length = n) (times item n) := by
  induction n with
  | zero => exact .pure rfl
  | succ n ih => exact .then fun x ↦ ih.bind fun xs hxs ↦ .pure (congrArg (· + 1) hxs)

theorem yields_vector_length (item : Reader α) : Yields (·.length < UInt32.size) (vector item) :=
  .then fun n ↦ (yields_times_length item n.toNat).imp fun _ hxs ↦ hxs ▸ n.toNat_lt

/-- There are fewer than `2 ^ 32` groups with fewer than `2 ^ 32` locals each. -/
theorem yields_localGroups : Yields (fun groups ↦ ∀ gs, gs <+: groups →
    gs.foldl (fun n g ↦ n + g.1) 0 < UInt64.size) (vector localGroup) := by
  have hgroup : Yields (·.1 < UInt32.size) localGroup :=
    .then fun count ↦ .then fun _ ↦ .pure count.toNat_lt
  refine (hgroup.vector.and (yields_vector_length localGroup)).imp ?_
  rintro groups ⟨hcounts, hlen⟩ gs hgs
  have hsum : gs.foldl (fun n g ↦ n + g.1) 0 = (gs.map (·.1)).sum := by
    rw [List.sum_eq_foldl, List.foldl_map]
  have hle : (gs.map (·.1)).sum ≤ gs.length * UInt32.size := by
    rw [← List.length_map (·.1)]
    refine List.sum_le_card_nsmul _ _ fun n hn ↦ ?_
    obtain ⟨g, hg, rfl⟩ := List.mem_map.mp hn
    exact (hcounts g (hgs.subset hg)).le
  calc gs.foldl (fun n g ↦ n + g.1) 0
    _ ≤ gs.length * UInt32.size := hsum.trans_le hle
    _ < UInt32.size * UInt32.size :=
      Nat.mul_lt_mul_of_pos_right (hgs.length_le.trans_lt hlen) (by decide)
    _ = UInt64.size := by decide

end Reader

open Reader RawSection in
/-- What a section of its own holds is counted by its bytes. -/
theorem RawSection.length_lt_of_contents {α : Type} {ss : List RawSection} {id : SectionId}
    {item : Reader α} {xs : List α} {n : Nat} (hss : ∀ s ∈ ss, s.Sized) (h : Spends n item)
    (hxs : contents ss id (vector item) [] = some xs) : n * xs.length < UInt32.size := by
  unfold contents at hxs
  split at hxs
  · rename_i s hs
    have hsized : s.Sized := hss s (List.mem_of_find?_eq_some hs)
    exact (length_lt_of_parse? h hxs).trans hsized.lt
  · obtain rfl := Option.some.inj hxs
    exact (Nat.mul_zero n).trans_lt (by decide)

/-- All members of an index space, and the defined functions behind the imported ones, have indices
of 32 bits. -/
structure Module.Indexable (m : Module) : Prop where
  funcs : m.totalFuncs < UInt32.size
  tables : m.totalTables < UInt32.size
  memories : m.totalMemories < UInt32.size
  globals : m.totalGlobals < UInt32.size
  defined : ∀ i < m.funcTypes.length, m.imported.funcs + i < UInt32.size

theorem ImportCounts.le_length (imports : List Import) :
    (ofImports imports).funcs ≤ imports.length ∧ (ofImports imports).tables ≤ imports.length ∧
    (ofImports imports).memories ≤ imports.length ∧ (ofImports imports).globals ≤ imports.length :=
  ⟨List.countP_le_length, List.countP_le_length, List.countP_le_length, List.countP_le_length⟩

namespace Module

theorem indexable_decode {bytes : List UInt8} {m : Module} (h : decode bytes = .ok m) :
    m.Indexable := by
  obtain ⟨ss, hss, rfl⟩ := sections_of_decode h
  obtain ⟨-, d, hd, hm⟩ := (decode_sections hss).mp h
  obtain ⟨hbodies, -, rfl⟩ := finish_ok hm
  have hg := hd.gathers
  have himports := RawSection.length_lt_of_contents hss Reader.spends_import hg.imports
  have hcode := RawSection.length_lt_of_contents hss (Reader.spends_body _) hg.code
  have htables := RawSection.length_lt_of_contents hss Reader.spends_tableType hg.tables
  have hmemories := RawSection.length_lt_of_contents hss Reader.spends_memoryType hg.memories
  have hglobals := RawSection.length_lt_of_contents hss (Reader.spends_globalDef _) hg.globals
  have himported := ImportCounts.le_length d.mod.imports
  rw [← hg.imported] at himported
  have hfuncs : d.mod.imported.funcs + d.mod.funcTypes.length < UInt32.size := by omega
  refine ⟨hfuncs, ?_, ?_, ?_, fun i hi ↦ (Nat.add_lt_add_left hi _).trans hfuncs⟩
  · change d.mod.imported.tables + d.mod.tables.length < UInt32.size
    omega
  · change d.mod.imported.memories + d.mod.memories.length < UInt32.size
    omega
  · change d.mod.imported.globals + d.mod.globals.length < UInt32.size
    omega

/-- Nothing that is added up overflows. In a decoded module the totals of the index spaces and the
indices of the defined functions fit 32 bits, and while the counts of any groups of locals that are
read are added, each sum fits 64 bits. -/
theorem decode_sums_fit :
    (∀ bytes m, decode bytes = .ok m → m.Indexable) ∧
    ∀ c groups c', Reader.vector Reader.localGroup c = .ok groups c' → ∀ gs, gs <+: groups →
      gs.foldl (fun n g ↦ n + g.1) 0 < UInt64.size :=
  ⟨fun _ _ ↦ indexable_decode, Reader.yields_localGroups⟩

/-- A function behind an imported one, and two groups whose sum takes more than 32 bits. -/
theorem decode_sums_fit_function :
    let bytes := preamble ++ [1, 4, 1, 0x60, 0, 0, 2, 7, 1, 1, 0x6D, 1, 0x66, 0, 0, 3, 2, 1, 0,
      10, 4, 1, 2, 0, 0x0B]
    let m : Module := { types := [⟨[], []⟩], imports := [⟨"m", "f", .func 0⟩], funcTypes := [0],
                        functions := [⟨0, [], #[.end_]⟩], imported := { funcs := 1 } }
    let c : Cursor := .ofBytes [2, 1, 0x7F, 0xFF, 0xFF, 0xFF, 0xFF, 0x0F, 0x7E]
    let groups : List (Nat × ValType) := [(1, .i32), (4294967295, .i64)]
    decode bytes = .ok m ∧ m.Indexable ∧
    Reader.vector Reader.localGroup c = .ok groups (c.advance 9) ∧
    groups.foldl (fun n g ↦ n + g.1) 0 < UInt64.size := by
  intro bytes m c groups
  have hm : decode bytes = .ok m := by decide +kernel
  have hgroups : Reader.vector Reader.localGroup c = .ok groups (c.advance 9) := by cbv
  exact ⟨hm, decode_sums_fit.1 bytes m hm, hgroups,
    decode_sums_fit.2 c groups _ hgroups groups List.prefix_rfl⟩

end Module

end Wasm
