import TensorCompiler.Graph.Typing
import TensorCompiler.Proofs.Checks

/-!
The typing rules as a relation. `Typing.Typed` has one constructor for each rule and shows the
shapes that the checks of `Typing.resultTypes` leave (`typed_of_resultTypes`).
-/

namespace TensorCompiler.Typing

/-- An operator takes operands of these types to results of those. -/
inductive Typed (s : Storage) : Operator → List TensorType → List TensorType → Prop
  | binary (op : BinaryOp) (x : Shape) : Typed s (.binary op) [.float x, .float x] [.float x]
  | unary (op : UnaryOp) (x : Shape) : Typed s (.unary op) [.float x] [.float x]
  | splat (value : Single) (type : TensorType) : Typed s (.splat value type) [] [type]
  | reshape (x : TensorType) (target : Shape) : target.volume = x.volume →
      Typed s (.reshape target) [x] [⟨x.kind, target⟩]
  | transpose (x : TensorType) (perm : List Nat) : isPermutation perm x.rank = true →
      Typed s (.transpose perm) [x] [⟨x.kind, perm.map fun axis => x.shape.getD axis 0⟩]
  | conv (p : Convolution) (n h w c oh ow : Nat) : p.outputs? h = some oh →
      p.outputs? w = some ow →
      Typed s (.conv p) [.float [n, h, w, c], .float [p.depth, p.kernel, p.kernel, c],
        .float [p.depth]] [.float [n, oh, ow, p.depth]]
  | maxPool (p : Window) (n h w c oh ow : Nat) : p.outputs? h = some oh → p.outputs? w = some ow →
      Typed s (.maxPool p) [.float [n, h, w, c]] [.float [n, oh, ow, c]]
  | fullyConnected (n d depth : Nat) (ds : Shape) (bias : ElementKind) :
      Typed s .fullyConnected [.float (n :: d :: ds), .float [Shape.volume (d :: ds), depth],
        ⟨bias, [depth]⟩] [.float [n, depth]]
  | softMax (n w : Nat) : Typed s .softMax [.float [n, w], .index [n, 1]] [.float [n, w]]
  | normalization (p : Normalization) (n h w c : Nat) :
      Typed s (.normalization p) [.float [n, h, w, c]] [.float [n, h, w, c]]
  | regression (x : Shape) : Typed s .regression [.float x, .float x] [.float x]
  | sharedMatMul (n a b c : Nat) :
      Typed s .batchedMatMul [.float [n, a, b], .float [b, c]] [.float [n, a, c]]
  | batchedMatMul (n a b c : Nat) :
      Typed s .batchedMatMul [.float [n, a, b], .float [n, b, c]] [.float [n, a, c]]
  | batchedReduce (n : Nat) (ds : Shape) :
      Typed s .batchedReduce [.float (n :: ds)] [.float ds]
  | batched (op : BatchOp) (n : Nat) (ds : Shape) :
      Typed s (.batched op) [.float (n :: ds), .float ds] [.float (n :: ds)]
  | save (ref : StorageRef) (x : TensorType) : s.type? ref = some x →
      Typed s (.save ref) [x] []
  | sgd (p : Descent) (x : Shape) : Typed s (.sgd p) [.float x, .float x] []
  | reluGrad (x : Shape) : Typed s .reluGrad [.float x, .float x] [.float x]
  | convGrad (p : Convolution) (n h w c oh ow : Nat) : p.outputs? h = some oh →
      p.outputs? w = some ow →
      Typed s (.convGrad p) [.float [n, h, w, c], .float [p.depth, p.kernel, p.kernel, c],
        .float [n, oh, ow, p.depth]]
        [.float [n, h, w, c], .float [p.depth, p.kernel, p.kernel, c], .float [p.depth]]
  | maxPoolGrad (p : Window) (n h w c oh ow : Nat) : p.outputs? h = some oh →
      p.outputs? w = some ow →
      Typed s (.maxPoolGrad p) [.float [n, h, w, c], .float [n, oh, ow, c]] [.float [n, h, w, c]]
  | fullyConnectedGrad (n d depth : Nat) (ds : Shape) :
      Typed s .fullyConnectedGrad [.float (n :: d :: ds), .float [Shape.volume (d :: ds), depth],
        .float [n, depth]]
        [.float (n :: d :: ds), .float [Shape.volume (d :: ds), depth], .float [depth]]
  | softMaxGrad (n w : Nat) : Typed s .softMaxGrad [.float [n, w], .index [n, 1]] [.float [n, w]]
  | normalizationGrad (p : Normalization) (n h w c : Nat) :
      Typed s (.normalizationGrad p) [.float [n, h, w, c], .float [n, h, w, c]]
        [.float [n, h, w, c]]

section Checks

theorem requireFloat_ok_iff {i : Nat} {t : TensorType} :
    requireFloat i t = .ok () ↔ ∃ x, t = .float x := by
  rcases t with ⟨_ | _, x⟩ <;> simp [requireFloat, TensorType.isFloat, TensorType.float]

theorem requireSame_ok_iff {x y : TensorType} : requireSame x y = .ok () ↔ x = y := by
  simp [requireSame]

theorem requireRank_ok_iff {i r : Nat} {t : TensorType} :
    requireRank i t r = .ok () ↔ t.rank = r := by
  simp [requireRank]

theorem requireGradient_ok_iff {g x : TensorType} : requireGradient g x = .ok () ↔ g = x := by
  simp [requireGradient]

theorem conv_ok_iff {p : Convolution} {x f out : TensorType} :
    conv p x f = .ok out ↔ ∃ n h w c oh ow, x = .float [n, h, w, c] ∧
      f = .float [p.depth, p.kernel, p.kernel, c] ∧ p.outputs? h = some oh ∧
      p.outputs? w = some ow ∧ out = .float [n, oh, ow, p.depth] := by
  unfold conv
  simp only [check_bind_ok_iff, requireFloat_ok_iff]
  constructor
  · rintro ⟨⟨x, rfl⟩, ⟨f, rfl⟩, h⟩
    split at h
    · next n h w c hx =>
      simp only [ite_ok_iff, bind_ok_iff, throw_ok_iff, false_and, exists_false, and_false,
        false_or, Decidable.not_not] at h
      obtain ⟨hf, h⟩ := h
      split at h
      · next oh ow hoh how =>
        obtain rfl := pure_ok_iff.1 h
        exact ⟨n, _, _, c, oh, ow, congrArg _ hx, congrArg _ hf, hoh, how, rfl⟩
      · cases h
    · cases h
  · rintro ⟨n, h, w, c, oh, ow, rfl, rfl, hoh, how, rfl⟩
    simp [TensorType.float, hoh, how]

theorem pool_ok_iff {p : Window} {x out : TensorType} :
    pool p x = .ok out ↔ ∃ n h w c oh ow, x = .float [n, h, w, c] ∧
      p.outputs? h = some oh ∧ p.outputs? w = some ow ∧ out = .float [n, oh, ow, c] := by
  unfold pool
  simp only [check_bind_ok_iff, requireFloat_ok_iff]
  constructor
  · rintro ⟨⟨x, rfl⟩, h⟩
    split at h
    · next n h w c hx =>
      split at h
      · next oh ow hoh how =>
        obtain rfl := pure_ok_iff.1 h
        exact ⟨n, _, _, c, oh, ow, congrArg _ hx, hoh, how, rfl⟩
      · cases h
    · cases h
  · rintro ⟨n, h, w, c, oh, ow, rfl, hoh, how, rfl⟩
    simp [TensorType.float, hoh, how]

theorem dense_ok_iff {x w : TensorType} {n depth : Nat} :
    dense x w = .ok (n, depth) ↔ ∃ d ds, x = .float (n :: d :: ds) ∧
      w = .float [Shape.volume (d :: ds), depth] := by
  unfold dense
  simp only [check_bind_ok_iff, requireFloat_ok_iff]
  constructor
  · rintro ⟨⟨x, rfl⟩, ⟨w, rfl⟩, h⟩
    split at h
    · next n' d ds hx =>
      split at h
      · next rows depth' hw =>
        simp only [ite_ok_iff, pure_ok_iff, throw_ok_iff, and_false, or_false,
          Prod.mk.injEq] at h
        obtain ⟨rfl, rfl, rfl⟩ := h
        exact ⟨d, ds, congrArg _ hx, congrArg _ hw⟩
      · cases h
    · cases h
  · rintro ⟨d, ds, rfl, rfl⟩
    simp [TensorType.float]

theorem labelled_ok_iff {x labels : TensorType} {rs : List TensorType} :
    labelled x labels = .ok rs ↔ ∃ n w, x = .float [n, w] ∧ labels = .index [n, 1] ∧ rs = [x] := by
  unfold labelled
  simp only [check_bind_ok_iff, requireFloat_ok_iff]
  constructor
  · rintro ⟨⟨x, rfl⟩, h⟩
    split at h
    · next n w hx =>
      simp only [ite_ok_iff, pure_ok_iff, throw_ok_iff, and_false, or_false] at h
      exact ⟨n, w, congrArg _ hx, h.1, h.2.symm⟩
    · cases h
  · rintro ⟨n, w, rfl, rfl, rfl⟩
    simp [TensorType.float]

theorem matmul_ok_iff {x y : TensorType} {rs : List TensorType} :
    matmul x y = .ok rs ↔ ∃ n a b c, x = .float [n, a, b] ∧
      (y = .float [b, c] ∨ y = .float [n, b, c]) ∧ rs = [.float [n, a, c]] := by
  unfold matmul
  simp only [check_bind_ok_iff, requireFloat_ok_iff]
  constructor
  · rintro ⟨⟨x, rfl⟩, ⟨y, rfl⟩, h⟩
    split at h
    · next n a b hx =>
      split at h
      · next b' c hy =>
        simp only [ite_ok_iff, Except.ok.injEq, reduceCtorEq, and_false, or_false] at h
        obtain ⟨rfl, rfl⟩ := h
        exact ⟨n, a, _, c, congrArg _ hx, .inl (congrArg _ hy), rfl⟩
      · next n' b' c hy =>
        simp only [ite_ok_iff, Except.ok.injEq, reduceCtorEq, throw_ok_iff, and_false,
          or_false] at h
        obtain ⟨rfl, rfl, rfl⟩ := h
        exact ⟨_, a, _, c, congrArg _ hx, .inr (congrArg _ hy), rfl⟩
      · cases h
    · cases h
  · rintro ⟨n, a, b, c, rfl, rfl | rfl, rfl⟩ <;> simp [TensorType.float]

end Checks

/-- The exact shapes behind each rule that passes. -/
theorem typed_of_rule {s : Storage} {op : Operator} {ts rs : List TensorType}
    (h : rule op ts = .ok rs) : Typed s op ts rs := by
  unfold rule at h
  split at h
  all_goals try simp only [check_bind_ok_iff, requireFloat_ok_iff] at h
  all_goals try simp only [bind_ok_iff, pure_ok_iff, requireSame_ok_iff, requireRank_ok_iff,
    conv_ok_iff, pool_ok_iff, labelled_ok_iff, matmul_ok_iff, ite_ok_iff, throw_ok_iff,
    Except.ok.injEq, Prod.exists, dense_ok_iff, reduceCtorEq, and_false, or_false, exists_false,
    false_and, false_or, Decidable.not_not] at h
  case h_1 => obtain ⟨⟨x, rfl⟩, rfl, rfl⟩ := h; exact .binary _ x
  case h_2 => obtain ⟨⟨x, rfl⟩, rfl, rfl⟩ := h; exact .regression x
  case h_3 => obtain ⟨⟨x, rfl⟩, rfl⟩ := h; exact .unary _ x
  case h_4 => exact h ▸ .splat _ _
  case h_5 => obtain ⟨hv, rfl⟩ := h; exact .reshape _ _ hv
  case h_6 => obtain ⟨hp, rfl⟩ := h; exact .transpose _ _ hp
  case h_7 =>
    obtain ⟨_, ⟨n, h, w, c, oh, ow, rfl, rfl, hoh, how, rfl⟩, _, hb, hbias, rfl⟩ := h
    obtain ⟨b, rfl⟩ := requireFloat_ok_iff.1 hb
    obtain rfl : b = _ := hbias
    exact .conv _ n h w c oh ow hoh how
  case h_8 =>
    obtain ⟨_, ⟨n, h, w, c, oh, ow, rfl, hoh, how, rfl⟩, rfl⟩ := h
    exact .maxPool _ n h w c oh ow hoh how
  case h_9 b =>
    obtain ⟨n, depth, ⟨d, ds, rfl, rfl⟩, hb, rfl⟩ := h
    obtain ⟨kind, shape⟩ := b
    obtain rfl : shape = _ := hb
    exact .fullyConnected n d depth ds kind
  case h_10 => obtain ⟨n, w, rfl, rfl, rfl⟩ := h; exact .softMax n w
  case h_11 => obtain ⟨n, w, rfl, rfl, rfl⟩ := h; exact .softMaxGrad n w
  case h_12 =>
    obtain ⟨⟨x, rfl⟩, hx, rfl⟩ := h
    obtain ⟨n, h, w, c, rfl⟩ := List.length_eq_four.1 hx
    exact .normalization _ n h w c
  case h_13 =>
    obtain ⟨n, a, b, c, rfl, rfl | rfl, rfl⟩ := h
    · exact .sharedMatMul n a b c
    · exact .batchedMatMul n a b c
  case h_14 =>
    obtain ⟨⟨x, rfl⟩, h⟩ := h
    cases x with
    | nil => cases h
    | cons n ds => exact (pure_ok_iff.1 h) ▸ .batchedReduce n ds
  case h_15 =>
    obtain ⟨⟨x, rfl⟩, h⟩ := h
    cases x with
    | nil => cases h
    | cons n ds =>
      rcases ite_ok_iff.1 h with ⟨hslice, hrs⟩ | ⟨-, hrs⟩
      · subst hslice
        exact (pure_ok_iff.1 hrs) ▸ .batched _ n ds
      · cases hrs
  case h_16 => obtain ⟨⟨x, rfl⟩, rfl, rfl⟩ := h; exact .sgd _ x
  case h_17 => obtain ⟨⟨x, rfl⟩, rfl, rfl⟩ := h; exact .reluGrad x
  case h_18 =>
    obtain ⟨_, ⟨n, h, w, c, oh, ow, rfl, rfl, hoh, how, rfl⟩, _, hg, rfl⟩ := h
    obtain rfl := requireGradient_ok_iff.1 hg
    exact .convGrad _ n h w c oh ow hoh how
  case h_19 =>
    obtain ⟨_, ⟨n, h, w, c, oh, ow, rfl, hoh, how, rfl⟩, _, hg, rfl⟩ := h
    obtain rfl := requireGradient_ok_iff.1 hg
    exact .maxPoolGrad _ n h w c oh ow hoh how
  case h_20 =>
    obtain ⟨n, depth, ⟨d, ds, rfl, rfl⟩, _, hg, rfl⟩ := h
    obtain rfl := requireGradient_ok_iff.1 hg
    exact .fullyConnectedGrad n d depth ds
  case h_21 =>
    obtain ⟨⟨x, rfl⟩, hx, rfl, rfl⟩ := h
    obtain ⟨n, h, w, c, rfl⟩ := List.length_eq_four.1 hx
    exact .normalizationGrad _ n h w c

/-- What the types of a node's results say about its operands. -/
theorem typed_of_resultTypes {s : Storage} {op : Operator} {ts rs : List TensorType}
    (h : resultTypes s op ts = .ok rs) : Typed s op ts rs := by
  unfold resultTypes at h
  split at h
  · next ref =>
    unfold saveRule at h
    split at h
    · split at h
      · next x _ type name htype _ =>
        simp only [ite_ok_iff, Except.ok.injEq, reduceCtorEq, and_false, or_false] at h
        obtain ⟨rfl, rfl⟩ := h
        exact .save ref _ htype
      · cases h
    · cases h
  · exact typed_of_rule (mapError_ok_iff.1 h)

/-- A rule passes on the shapes it describes. -/
theorem rule_of_typed {s : Storage} {op : Operator} {ts rs : List TensorType}
    (h : Typed s op ts rs) (hsave : ∀ ref, op ≠ .save ref) : rule op ts = .ok rs := by
  cases h with
  | save ref => exact absurd rfl (hsave ref)
  | conv p n h w c oh ow hoh how =>
    refine bind_ok_iff.2 ⟨_, conv_ok_iff.2 ⟨n, h, w, c, oh, ow, rfl, rfl, hoh, how, rfl⟩, ?_⟩
    simp [requireFloat, TensorType.float, TensorType.isFloat]
  | convGrad p n h w c oh ow hoh how =>
    refine bind_ok_iff.2 ⟨_, conv_ok_iff.2 ⟨n, h, w, c, oh, ow, rfl, rfl, hoh, how, rfl⟩, ?_⟩
    simp [requireGradient]
  | maxPool p n h w c oh ow hoh how =>
    exact bind_ok_iff.2 ⟨_, pool_ok_iff.2 ⟨n, h, w, c, oh, ow, rfl, hoh, how, rfl⟩, rfl⟩
  | maxPoolGrad p n h w c oh ow hoh how =>
    refine bind_ok_iff.2 ⟨_, pool_ok_iff.2 ⟨n, h, w, c, oh, ow, rfl, hoh, how, rfl⟩, ?_⟩
    simp [requireGradient]
  | fullyConnected n d depth ds bias =>
    refine bind_ok_iff.2 ⟨(n, depth), dense_ok_iff.2 ⟨d, ds, rfl, rfl⟩, ?_⟩
    simp
  | fullyConnectedGrad n d depth ds =>
    refine bind_ok_iff.2 ⟨(n, depth), dense_ok_iff.2 ⟨d, ds, rfl, rfl⟩, ?_⟩
    simp [requireGradient]
  | softMax n w => exact labelled_ok_iff.2 ⟨n, w, rfl, rfl, rfl⟩
  | softMaxGrad n w => exact labelled_ok_iff.2 ⟨n, w, rfl, rfl, rfl⟩
  | sharedMatMul n a b c => exact matmul_ok_iff.2 ⟨n, a, b, c, rfl, .inl rfl, rfl⟩
  | batchedMatMul n a b c => exact matmul_ok_iff.2 ⟨n, a, b, c, rfl, .inr rfl, rfl⟩
  | reshape x target hvolume => exact if_pos hvolume
  | transpose x perm hperm => exact if_pos hperm
  | splat => rfl
  | _ => simp [rule, requireFloat, requireSame, requireRank, TensorType.float, TensorType.isFloat,
      TensorType.rank]

/-- The types of an operator's results are those that its shapes describe. -/
theorem resultTypes_of_typed {s : Storage} {op : Operator} {ts rs : List TensorType}
    (h : Typed s op ts rs) : resultTypes s op ts = .ok rs := by
  by_cases hsave : ∃ ref, op = .save ref
  · obtain ⟨ref, rfl⟩ := hsave
    cases h with
    | save _ x hx =>
      obtain ⟨name, hname⟩ : ∃ name, s.name? ref = some name := by
        cases ref <;>
          (obtain ⟨d, hd, -⟩ := Option.map_eq_some_iff.1 hx
           exact ⟨d.name, by simp [Storage.name?, hd]⟩)
      simp [resultTypes, saveRule, hx, hname]
  · have hrule := rule_of_typed h fun ref heq => hsave ⟨ref, heq⟩
    unfold resultTypes
    split
    · exact absurd ⟨_, rfl⟩ hsave
    · exact mapError_ok_iff.2 hrule

end TensorCompiler.Typing
