import SignalFormula.Proofs.Catalog
import SignalFormula.Proofs.Result
import SignalFormula.Proofs.Text.Bytes
import SignalFormula.Spec.File
/-!
# Selection — one spec of a file, and the formulas of all of them

A file defines specs under names.  Building all of them goes through the names in order and ends with the first spec that
does not compile (`buildEntries_eq_ok_iff`, `buildEntries_eq_error_iff`).  So under each name stands the formula of the spec
that is selected by it, and if a spec does not compile, the error is that of the least name with such a spec
(`buildAll_select`).
-/
namespace SignalFormula

theorem Spec.noise_of_build {V : Type} [Scalar V] {s : Spec} {f : Formula V} (h : s.build = .ok f) :
    f.noise = ⟨s.seed.getD Noise.defaultSeed⟩ := by
  rw [build, Formula.recompile] at h
  obtain ⟨p, -, rfl⟩ := Result.map_eq_ok_iff.1 h
  rfl

namespace SpecFile

open Result (bind_eq_ok_iff bind_eq_error_iff map_eq_ok_iff map_eq_error_iff)

/-- The specs of a file under their names, in order; a single spec stands under the empty name. -/
def definitions : SpecFile → List (Text × Spec)
  | .single s => [([], s)]
  | .set specs => specs.entries

def names (file : SpecFile) : List Text := file.definitions.map Prod.fst

theorem increasing_definitions : ∀ file : SpecFile, Increasing file.definitions
  | .single _ => List.pairwise_singleton _ _
  | .set specs => specs.increasing

/-! ## Selecting -/

theorem select_of_mem {file : SpecFile} {name : Text} {s : Spec} (h : (name, s) ∈ file.definitions) :
    file.select (some name) = .ok s := by
  cases file with
  | single t =>
    cases List.mem_singleton.1 h
    rfl
  | set specs =>
    have hfind : specs.find? name = some s := (Increasing.lookup_eq_some_iff specs.increasing).2 h
    rw [select, hfind]

theorem exists_select_iff {specs : Catalog Spec} {name : Text} :
    (∃ s, (SpecFile.set specs).select (some name) = .ok s) ↔ name ∈ (SpecFile.set specs).names := by
  constructor
  · rintro ⟨s, hs⟩
    by_contra hnone
    have hfind : specs.find? name = none := lookup_eq_none_iff.2 hnone
    rw [select, hfind] at hs
    cases hs
  · intro h
    obtain ⟨⟨n, s⟩, hmem, rfl⟩ := List.mem_map.1 h
    exact ⟨s, select_of_mem hmem⟩

theorem select_none_of_eq {file : SpecFile} {name : Text} {s : Spec} (h : file.definitions = [(name, s)]) :
    file.select none = .ok s := by
  cases file with
  | single t => cases h; rfl
  | set specs =>
    have hentries : specs.entries = [(name, s)] := h
    rw [select, hentries]

theorem select_none_of_length_ne {file : SpecFile} (h : file.definitions.length ≠ 1) :
    file.select none = .error (.ambiguous file.definitions.length) := by
  cases file with
  | single t => exact absurd rfl h
  | set specs =>
    rw [select]
    split
    · rename_i hentries
      rw [definitions, hentries] at h
      exact absurd rfl h
    · rfl

/-- **Without a name there has to be exactly one spec.** -/
theorem select_none_eq_ok_iff {file : SpecFile} {s : Spec} :
    file.select none = .ok s ↔ ∃ name, file.definitions = [(name, s)] := by
  constructor
  · intro h
    by_cases hone : file.definitions.length = 1
    · obtain ⟨⟨name, t⟩, hname⟩ := List.length_eq_one_iff.1 hone
      rw [select_none_of_eq hname] at h
      cases h
      exact ⟨name, hname⟩
    · rw [select_none_of_length_ne hone] at h
      cases h
  · rintro ⟨name, h⟩
    exact select_none_of_eq h

/-! ## Building all -/

section build

variable {V : Type} [Scalar V]

/-- **Entries build if every one does**, each under its name. -/
theorem buildEntries_eq_ok_iff : ∀ {es : List (Text × Spec)} {fs : List (Text × Formula V)},
    buildEntries es = .ok fs ↔ List.Forall₂ (fun e f => e.1 = f.1 ∧ e.2.build = .ok f.2) es fs
  | [], fs => by
    rw [buildEntries, List.forall₂_nil_left_iff]
    constructor
    · intro h; cases h; rfl
    · rintro rfl; rfl
  | (name, s) :: es, fs => by
    rw [buildEntries, bind_eq_ok_iff]
    constructor
    · rintro ⟨f, hf, h⟩
      obtain ⟨gs, hgs, heq⟩ := bind_eq_ok_iff.1 h
      cases heq
      exact .cons ⟨rfl, hf⟩ (buildEntries_eq_ok_iff.1 hgs)
    · intro h
      cases h with
      | @cons _ g _ gs hg hgs =>
        obtain ⟨n, f⟩ := g
        obtain ⟨rfl, hf⟩ := hg
        exact ⟨f, hf, bind_eq_ok_iff.2 ⟨gs, buildEntries_eq_ok_iff.2 hgs, rfl⟩⟩

/-- One entry: it fails itself, or it builds and one behind it fails. -/
theorem buildEntries_cons_eq_error_iff {name : Text} {s : Spec} {es : List (Text × Spec)} {e : CompileError} :
    (buildEntries ((name, s) :: es) : Except CompileError (List (Text × Formula V))) = .error e ↔
      (s.build : Except CompileError (Formula V)) = .error e ∨ (∃ f : Formula V, s.build = .ok f) ∧
        (buildEntries es : Except CompileError (List (Text × Formula V))) = .error e := by
  simp [buildEntries, bind_eq_error_iff]

/-- **Entries fail with the first one that does not build.** -/
theorem buildEntries_eq_error_iff {e : CompileError} : ∀ {es : List (Text × Spec)},
    (buildEntries es : Except CompileError (List (Text × Formula V))) = .error e ↔
      ∃ pre name s post, es = pre ++ (name, s) :: post ∧ (∀ d ∈ pre, ∃ f : Formula V, d.2.build = .ok f) ∧
        (s.build : Except CompileError (Formula V)) = .error e
  | [] => by
    constructor
    · intro h; cases h
    · rintro ⟨pre, name, s, post, h, -⟩
      cases pre <;> cases h
  | (name, s) :: es => by
    rw [buildEntries_cons_eq_error_iff, buildEntries_eq_error_iff]
    constructor
    · rintro (hs | ⟨hs, pre, n, t, post, rfl, hpre, ht⟩)
      · exact ⟨[], name, s, es, rfl, by simp, hs⟩
      · exact ⟨(name, s) :: pre, n, t, post, rfl, List.forall_mem_cons.2 ⟨hs, hpre⟩, ht⟩
    · rintro ⟨pre, n, t, post, h, hpre, ht⟩
      cases pre with
      | nil => cases h; exact .inl ht
      | cons d pre =>
        cases h
        obtain ⟨hs, hpre⟩ := List.forall_mem_cons.1 hpre
        exact .inr ⟨hs, pre, n, t, post, rfl, hpre, ht⟩

theorem buildAll_eq (file : SpecFile) :
    (file.buildAll : Except CompileError (Catalog (Formula V))) = (buildEntries file.definitions).map Catalog.ofList := by
  cases file with
  | single s =>
    rw [buildAll, definitions, buildEntries]
    cases (s.build : Except CompileError (Formula V)) <;> rfl
  | set specs => rfl

/-- **A catalog of all formulas**: its entries are the formulas of the specs, name by name. -/
theorem buildAll_eq_ok_iff {file : SpecFile} {c : Catalog (Formula V)} : file.buildAll = .ok c ↔
    List.Forall₂ (fun d f => d.1 = f.1 ∧ d.2.build = .ok f.2) file.definitions c.entries := by
  rw [buildAll_eq, map_eq_ok_iff]
  constructor
  · rintro ⟨fs, hfs, rfl⟩
    have hall := buildEntries_eq_ok_iff.1 hfs
    rwa [Catalog.ofList_entries (Increasing.of_forall₂ (R := fun s f => s.build = .ok f) hall file.increasing_definitions)]
  · intro h
    exact ⟨c.entries, buildEntries_eq_ok_iff.2 h, Catalog.ofList_entries c.increasing⟩

/-- **Under each name stands the formula of the spec there.** -/
theorem find?_of_buildAll {file : SpecFile} {c : Catalog (Formula V)} (h : file.buildAll = .ok c) {name : Text} {s : Spec}
    (hs : (name, s) ∈ file.definitions) : ∃ f : Formula V, s.build = .ok f ∧ c.find? name = some f := by
  have hrel : Option.Rel (fun s f => Spec.build s = .ok f) (file.definitions.lookup name) (c.find? name) :=
    rel_lookup_of_forall₂ (buildAll_eq_ok_iff.1 h) name
  rw [(Increasing.lookup_eq_some_iff file.increasing_definitions).2 hs] at hrel
  generalize c.find? name = found at hrel ⊢
  cases hrel with
  | some hf => exact ⟨_, hf, rfl⟩

/-- **The error is that of the least name whose spec does not build**, in the order of the bytes. -/
theorem buildAll_eq_error_iff {file : SpecFile} {e : CompileError} :
    (file.buildAll : Except CompileError (Catalog (Formula V))) = .error e ↔
      ∃ name s, (name, s) ∈ file.definitions ∧ (s.build : Except CompileError (Formula V)) = .error e ∧
        ∀ d ∈ file.definitions, d.1.bytes < name.bytes → ∃ f : Formula V, d.2.build = .ok f := by
  have hincreasing := file.increasing_definitions
  rw [buildAll_eq, map_eq_error_iff, buildEntries_eq_error_iff]
  constructor
  · rintro ⟨pre, name, s, post, heq, hpre, hs⟩
    rw [heq] at hincreasing ⊢
    refine ⟨name, s, List.mem_append_right _ List.mem_cons_self, hs, fun d hd hlt => ?_⟩
    rw [Text.bytes_lt_bytes_iff] at hlt
    rcases List.mem_append.1 hd with hd | hd
    · exact hpre d hd
    · -- what stands behind a name is not less
      rcases List.mem_cons.1 hd with rfl | hd
      · exact absurd hlt (List.lt_irrefl _)
      · have hgt := (List.pairwise_cons.1 (List.pairwise_append.1 hincreasing).2.1).1 d hd
        exact absurd hlt (List.lt_asymm hgt)
  · rintro ⟨name, s, hmem, hs, hless⟩
    obtain ⟨pre, post, heq⟩ := List.append_of_mem hmem
    refine ⟨pre, name, s, post, heq, fun d hd => ?_, hs⟩
    rw [heq] at hincreasing hless
    have hlt : d.1 < name := (List.pairwise_append.1 hincreasing).2.2 d hd _ List.mem_cons_self
    exact hless d (List.mem_append_left _ hd) (Text.bytes_lt_bytes hlt)

theorem exists_buildAll_iff {file : SpecFile} : (∃ c : Catalog (Formula V), file.buildAll = .ok c) ↔
    ∀ d ∈ file.definitions, ∃ f : Formula V, d.2.build = .ok f := by
  constructor
  · rintro ⟨c, hc⟩ ⟨name, s⟩ hs
    obtain ⟨f, hf, -⟩ := find?_of_buildAll hc hs
    exact ⟨f, hf⟩
  · intro h
    cases hall : (file.buildAll : Except CompileError (Catalog (Formula V))) with
    | ok c => exact ⟨c, rfl⟩
    | error e =>
      obtain ⟨name, s, hmem, hs, -⟩ := buildAll_eq_error_iff.1 hall
      obtain ⟨f, hf⟩ := h _ hmem
      rw [hs] at hf
      cases hf

end build

/-- **Building all agrees with selecting and building**: all formulas can be built if each spec builds, they stand under
the names of the file, each is the one of the spec that is selected by its name, with the seed of that spec or the default
one, and otherwise the error is that of the least name in the order of the bytes.  Without a name a file with exactly one
spec is selected from, and of a set a name of its own selects. -/
theorem buildAll_select (V : Type) [Scalar V] (file : SpecFile) :
    ((∃ c : Catalog (Formula V), file.buildAll = .ok c) ↔ ∀ d ∈ file.definitions, ∃ f : Formula V, d.2.build = .ok f) ∧
    (∀ c : Catalog (Formula V), file.buildAll = .ok c → c.entries.map Prod.fst = file.names ∧
      ∀ name ∈ file.names, ∃ s f, file.select (some name) = .ok s ∧ s.build = .ok f ∧ c.find? name = some f ∧
        f.noise = ⟨s.seed.getD Noise.defaultSeed⟩) ∧
    (∀ e, (file.buildAll : Except CompileError (Catalog (Formula V))) = .error e ↔
      ∃ name s, (name, s) ∈ file.definitions ∧ (s.build : Except CompileError (Formula V)) = .error e ∧
        ∀ d ∈ file.definitions, d.1.bytes < name.bytes → ∃ f : Formula V, d.2.build = .ok f) ∧
    (∀ s, file.select none = .ok s ↔ ∃ name, file.definitions = [(name, s)]) ∧
    (file.definitions.length ≠ 1 → file.select none = .error (.ambiguous file.definitions.length)) ∧
    ∀ specs, file = .set specs → ∀ name, (∃ s, file.select (some name) = .ok s) ↔ name ∈ specs.entries.map Prod.fst := by
  refine ⟨exists_buildAll_iff, fun c hc => ⟨?_, fun name hname => ?_⟩, fun e => buildAll_eq_error_iff,
    fun s => select_none_eq_ok_iff, select_none_of_length_ne, ?_⟩
  · exact (names_eq_of_forall₂ (R := fun s f => Spec.build s = .ok f) (buildAll_eq_ok_iff.1 hc)).symm
  · obtain ⟨⟨n, s⟩, hmem, rfl⟩ := List.mem_map.1 hname
    obtain ⟨f, hf, hfind⟩ := find?_of_buildAll hc hmem
    exact ⟨s, f, select_of_mem hmem, hf, hfind, s.noise_of_build hf⟩
  · rintro specs rfl name
    exact exists_select_iff

/-- Of two specs that do not compile the error is that of the lesser name, though its character has the greater UTF-16
unit; and a set of one spec. -/
theorem buildAll_select_least_name :
    let noise : Spec := ⟨"rand()".toList, [], some 7⟩
    let unknown : Spec := ⟨"y + 1".toList, [], none⟩
    let short : Spec := ⟨"1 +".toList, [], none⟩
    let file : SpecFile := .set (Catalog.ofList [(['😀'], short), (['ｚ'], unknown), (['a'], noise)])
    let alone : SpecFile := .set (Catalog.ofList [(['😀'], noise)])
    (file.buildAll : Except CompileError (Catalog (Formula Double))) = .error ⟨.unknownToken ['y'], "y + 1".toList⟩ ∧
      file.select none = .error (.ambiguous 3) ∧
      alone.select none = .ok noise ∧
      ∃ (c : Catalog (Formula Double)) (f : Formula Double), alone.buildAll = .ok c ∧ c.find? ['😀'] = some f ∧
        f.noise = ⟨7⟩ := by
  intro noise unknown short file alone
  have hfile : file.definitions = [(['a'], noise), (['ｚ'], unknown), (['😀'], short)] := by decide +kernel
  have halone : alone.definitions = [(['😀'], noise)] := by decide +kernel
  obtain ⟨f, hf⟩ : ∃ f : Formula Double, noise.build = .ok f := ⟨⟨some ⟨[.rand], 1⟩, ⟨7⟩⟩, by decide +kernel⟩
  have hunknown : (unknown.build : Except CompileError (Formula Double)) =
      .error ⟨.unknownToken ['y'], "y + 1".toList⟩ := by decide +kernel
  have hfirst : ∀ d ∈ file.definitions, d.1.bytes < Text.bytes ['ｚ'] → ∃ f : Formula Double, d.2.build = .ok f := by
    rw [hfile]
    intro d hd hlt
    simp only [List.mem_cons, List.not_mem_nil, or_false] at hd
    rcases hd with rfl | rfl | rfl
    · exact ⟨f, hf⟩
    · exact absurd hlt (by decide)
    · exact absurd hlt (by decide)
  obtain ⟨-, -, herror, -, hambiguous, -⟩ := buildAll_select Double file
  obtain ⟨hsome, hfind, -, hselect, -⟩ := buildAll_select Double alone
  obtain ⟨c, hc⟩ := hsome.2 (by rw [halone]; exact List.forall_mem_singleton.2 ⟨f, hf⟩)
  obtain ⟨-, hnames⟩ := hfind c hc
  obtain ⟨s, g, hs, hg, hcg, hnoise⟩ := hnames ['😀'] (by rw [names, halone]; exact List.mem_singleton_self _)
  have hs' : alone.select (some ['😀']) = .ok noise := select_of_mem (by rw [halone]; exact List.mem_singleton_self _)
  obtain rfl : noise = s := Except.ok.inj (hs'.symm.trans hs)
  refine ⟨(herror _).2 ⟨_, unknown, by rw [hfile]; simp, hunknown, hfirst⟩, ?_, (hselect noise).2 ⟨_, halone⟩,
    c, g, hc, hcg, hnoise⟩
  rw [hfile] at hambiguous
  exact hambiguous (by decide)

end SpecFile
end SignalFormula
