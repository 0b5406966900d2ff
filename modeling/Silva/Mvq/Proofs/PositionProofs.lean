import Silva.Mvq.Proofs.StoreProofs

/-!
# Proofs: where a node sits

The records below an interior node force its level, so a node that is reached from a root sits at
one level only, whichever version reaches it. The two sons of a node reach different nodes, because the
regions of their records are different.
-/

namespace Silva

open RefCount (Ptr Reach)
open Node (sons)

variable {leafSize b b' k k' : Nat} {t t' tl tr : BaseNode} {P P' A B : List Point}

/-- Codes of the two halves of a region are in one region from the next level on. -/
theorem div_eq_of_halves {p q : Point} (hp : p.mortonId / 2 ^ b = 2 * k)
    (hq : q.mortonId / 2 ^ b = 2 * k + 1) (hlt : b < b') :
    p.mortonId / 2 ^ b' = q.mortonId / 2 ^ b' := by
  obtain ⟨d, rfl⟩ := Nat.exists_eq_add_of_lt hlt
  have hup : ∀ n : Nat, n / 2 ^ (b + d + 1) = n / 2 ^ b / 2 / 2 ^ d := by
    intro n
    rw [← div_two_pow_succ, Nat.div_div_eq_div_mul, ← pow_add]
    congr 2
    omega
  rw [hup, hup, hp, hq]
  congr 1
  omega

/-- A tree with more records than a leaf holds has its place at one level only. -/
theorem WellFormed.level_unique (h : WellFormed leafSize b k t P)
    (h' : WellFormed leafSize b' k' t P') (hlarge : leafSize < P.length) : b = b' := by
  induction h generalizing b' k' P' with
  | null b k => exact absurd hlarge (Nat.not_lt_zero _)
  | leaf cell fits =>
    cases h' with
    | leaf cell' fits' => omega
  | @inte b k tl tr A B left right hl hr large ihl ihr =>
    generalize hn : A.length + B.length = n at h'
    cases h' with
    | @inte b' _ _ _ A' B' left' right' hl' hr' large' =>
      obtain rfl : A' = A := by rw [← left.collectRecords, left'.collectRecords]
      obtain rfl : B' = B := by rw [← right.collectRecords, right'.collectRecords]
      by_cases hA : leafSize < A'.length
      · rw [ihl left' hA]
      · by_cases hB : leafSize < B'.length
        · rw [ihr right' hB]
        · -- both halves have records, so the level is the one at which they part
          obtain ⟨p, hp⟩ := List.exists_mem_of_length_pos (show 0 < A'.length by omega)
          obtain ⟨q, hq⟩ := List.exists_mem_of_length_pos (show 0 < B'.length by omega)
          have hpb := left.cell.region p hp
          have hqb := right.cell.region q hq
          have hpb' := left'.cell.region p hp
          have hqb' := right'.cell.region q hq
          rcases lt_trichotomy b b' with hlt | heq | hlt
          · have := div_eq_of_halves hpb hqb hlt
            omega
          · rw [heq]
          · have := div_eq_of_halves hpb' hqb' hlt
            omega

namespace Store

variable {store : Store} {x l r : Ptr} {a c n : Nat}

/-- A son that is null when it holds no records. -/
theorem Reads.records_ne_nil (hread : Reads store (some c) t) (h0 : P = [] → t = .nullptr) :
    P ≠ [] := by
  rintro rfl
  exact absurd (hread.null_iff.mpr (h0 rfl)) (by simp)

/-- A node that is reached is the one pointed at, or it sits at a lower level and holds records. -/
theorem Reads.exists_position (h : WellFormed leafSize b k t P) (hread : Reads store x t)
    (hc : Reach sons store x c) :
    ∃ b' k' s Q, Reads store (some c) s ∧ WellFormed leafSize b' k' s Q ∧ (∀ p ∈ Q, p ∈ P) ∧
      (b' = b ∧ x = some c ∧ Q = P ∨ b' < b ∧ Q ≠ []) := by
  induction h generalizing x with
  | null b k =>
    rw [hread.null_iff.mpr rfl] at hc
    exact absurd hc Reach.not_null
  | @leaf b k P cell fits =>
    cases hread with
    | leaf ha =>
      cases hc with
      | here =>
        exact ⟨b, k, _, P, .leaf ha, .leaf cell fits, fun p hp => hp, Or.inl ⟨rfl, rfl, rfl⟩⟩
      | child hn hy hc => rw [ha] at hn; cases hn; simp [sons] at hy
  | @inte b k tl tr A B left right hl hr large ihl ihr =>
    cases hread with
    | @inte a _ l r _ _ ha hreadL hreadR =>
      cases hc with
      | here =>
        exact ⟨b + 1, k, _, A ++ B, .inte ha hreadL hreadR, .inte left right hl hr large,
          fun p hp => hp, Or.inl ⟨rfl, rfl, rfl⟩⟩
      | child hn hy hc =>
        rw [ha] at hn
        cases hn
        simp only [sons, List.mem_cons, List.not_mem_nil, or_false] at hy
        rcases hy with rfl | rfl
        · obtain ⟨b', k', s, Q, hs, hws, hsub, hcase⟩ := ihl hreadL hc
          refine ⟨b', k', s, Q, hs, hws, fun p hp => List.mem_append_left _ (hsub p hp), Or.inr ?_⟩
          rcases hcase with ⟨rfl, rfl, rfl⟩ | ⟨hlt, hne⟩
          · exact ⟨Nat.lt_succ_self _, hreadL.records_ne_nil hl⟩
          · exact ⟨Nat.lt_succ_of_lt hlt, hne⟩
        · obtain ⟨b', k', s, Q, hs, hws, hsub, hcase⟩ := ihr hreadR hc
          refine ⟨b', k', s, Q, hs, hws, fun p hp => List.mem_append_right _ (hsub p hp), Or.inr ?_⟩
          rcases hcase with ⟨rfl, rfl, rfl⟩ | ⟨hlt, hne⟩
          · exact ⟨Nat.lt_succ_self _, hreadR.records_ne_nil hr⟩
          · exact ⟨Nat.lt_succ_of_lt hlt, hne⟩

/-- A node with more records than a leaf holds is reached from trees at higher levels only. -/
theorem Reads.level_of_reach (h : WellFormed leafSize b k t P) (hread : Reads store x t)
    (h' : WellFormed leafSize b' k' t' P') (hread' : Reads store (some c) t')
    (hlarge : leafSize < P'.length) (hc : Reach sons store x c) :
    b' = b ∧ x = some c ∨ b' < b := by
  obtain ⟨b₁, k₁, s, Q, hs, hws, -, hcase⟩ := hread.exists_position h hc
  obtain rfl := hs.det hread'
  obtain rfl := h'.level_unique hws hlarge
  rcases hcase with ⟨hb, hx, -⟩ | ⟨hlt, -⟩
  · exact Or.inl ⟨hb, hx⟩
  · exact Or.inr hlt

/-- Trees in the two halves of a region have no node in common, if they are null when they hold no
records. -/
theorem Reads.disjoint (hreadL : Reads store l tl) (hreadR : Reads store r tr)
    (left : WellFormed leafSize b (2 * k) tl A) (right : WellFormed leafSize b (2 * k + 1) tr B)
    (hl : A = [] → tl = .nullptr) (hcl : Reach sons store l c) : ¬Reach sons store r c := by
  intro hcr
  obtain ⟨b₁, k₁, s, Q, hs, hws, hsub, hcase⟩ := hreadL.exists_position left hcl
  obtain ⟨b₂, k₂, s', Q', hs', hws', hsub', -⟩ := hreadR.exists_position right hcr
  obtain rfl := hs.det hs'
  obtain rfl : Q' = Q := by rw [← hws'.collectRecords, hws.collectRecords]
  have hne : Q' ≠ [] := by
    rcases hcase with ⟨-, rfl, rfl⟩ | ⟨-, hne⟩
    · exact hreadL.records_ne_nil hl
    · exact hne
  -- the prefixes of the records would be even and odd
  obtain ⟨p, hp⟩ := List.exists_mem_of_ne_nil Q' hne
  have h1 := left.cell.region p (hsub p hp)
  have h2 := right.cell.region p (hsub' p hp)
  omega

end Store

end Silva
