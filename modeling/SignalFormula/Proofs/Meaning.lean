import SignalFormula.Proofs.Assembly
import SignalFormula.Proofs.Execution
/-!
# Meaning — words become a program exactly if they spell a tree, and the program computes the tree

A row of words is taken for the operations that the words stand for.  It becomes a program exactly if these are the
postorder of a tree that fits the stack; there is one such tree, and evaluating the program is evaluating the tree, whose
operators are operations on values and know of no machine (`assemble_tree`).
-/
namespace SignalFormula
namespace Program

variable {V : Type} [Scalar V]

/-- **Words become a program exactly if they stand for the postorder of a tree that fits the stack.**  Each word is
resolved to what it stands for.  The tree is the only one, the program has its operations and its need, and for values
that cover the inputs its evaluation is that of the tree, with one step of the noise for each draw. -/
theorem assemble_tree (inputs words : List Text) :
    (∀ (word : Text) (op : Operation V), resolve? inputs word = some op ↔ Stands inputs word op) ∧
    ((∃ p : Program V, assemble inputs words = .ok p) ↔
      ∃ t : OpTree V, words.map (resolve? inputs) = t.postorder.map some ∧ t.need ≤ stackCapacity) ∧
    ∀ p : Program V, assemble inputs words = .ok p →
      ∃ t : OpTree V, words.map (resolve? inputs) = t.postorder.map some ∧ p = ⟨t.postorder, t.need⟩ ∧
        (∀ u : OpTree V, words.map (resolve? inputs) = u.postorder.map some → u = t) ∧
        ∀ (values : List V) (noise : Noise), (∀ i, .input i ∈ p.ops → i < values.length) →
          p.evaluate values noise = (.ok (t.value (givenBy values) noise).1, (t.value (givenBy values) noise).2) ∧
            (t.value (givenBy values) noise).2 = noise.steps t.draws := by
  refine ⟨fun _ _ => resolve?_eq_some_iff, ⟨?_, ?_⟩, ?_⟩
  · rintro ⟨p, hp⟩
    obtain ⟨t, hops, hneed, -⟩ := assemble_eq_ok_iff.1 hp
    exact ⟨t, hops, hneed⟩
  · rintro ⟨t, hops, hneed⟩
    exact ⟨_, assemble_eq_ok_iff.2 ⟨t, hops, hneed, rfl⟩⟩
  · intro p hp
    obtain ⟨t, hops, hneed, rfl⟩ := assemble_eq_ok_iff.1 hp
    refine ⟨t, hops, rfl, fun u hu => ?_, fun values noise hcover => ⟨?_, OpTree.value_snd _ t noise⟩⟩
    · have hmap : u.postorder.map some = t.postorder.map some := hu.symm.trans hops
      exact OpTree.eq_of_map_some_postorder hmap
    · exact evaluate_eq_value rfl hneed (fun i hi => getElem?_eq_givenBy (hcover i hi)) noise

/-- `x ^ (4 - trunc(rand / rand))` for `x = 2`: the first draw is one and the second one is less, so the value is `2 ^ 3`. -/
theorem assemble_tree_power_of_draws :
    let inputs : List Text := ["x".toList]
    let words : List Text :=
      ["x".toList, "4".toList, "rand".toList, "rand".toList, "/".toList, "trunc".toList, "-".toList, "pow".toList]
    let t : OpTree Double :=
      .binary .pow (.input 0) (.binary .sub (.const (.ofRat 4)) (.unary .trunc (.binary .div .rand .rand)))
    let values : List Double := [.ofRat 2]
    assemble inputs words = .ok ⟨t.postorder, 4⟩ ∧ (∀ i, .input i ∈ t.postorder → i < values.length) ∧
      (⟨t.postorder, 4⟩ : Program Double).evaluate values ⟨0x97FF⟩ = (.ok (.ofRat 8), ⟨0xCBFF⟩) := by
  intro inputs words t values
  have hmap : words.map (resolve? inputs) = t.postorder.map some := by decide +kernel
  have hassemble : assemble inputs words = .ok ⟨t.postorder, 4⟩ :=
    assemble_eq_ok_iff.2 ⟨t, hmap, by decide, rfl⟩
  have hcover : ∀ i, .input i ∈ t.postorder → i < values.length := by
    intro i hi
    simpa [t, values, OpTree.postorder] using hi
  have hvalue : (t.value (givenBy values) ⟨0x97FF⟩).1 = .ofRat 8 := by decide +kernel
  obtain ⟨u, -, -, hunique, heval⟩ := (assemble_tree inputs words).2.2 _ hassemble
  obtain rfl : t = u := hunique t hmap
  obtain ⟨hresult, hnoise⟩ := heval values ⟨0x97FF⟩ hcover
  refine ⟨hassemble, hcover, hresult.trans ?_⟩
  rw [hvalue, hnoise]
  rfl

end Program

end SignalFormula
