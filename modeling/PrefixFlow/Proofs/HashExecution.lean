import PrefixFlow.Proofs.StageCompile

/-!
# Executing the hash fragment

The hash fragment is a script of its own. On the items of a message, with anything beneath them, an
execution leaves the half bytes of the digest of that message in their place and the alt stack
empty (`execute_hashFragment`). The hash function enters by the length of its digests only.
-/

namespace PrefixFlow

section Fragment

variable {limb : Nat} {data : Bytes}

theorem hasBytes_hashFragment (limbs limb : Nat) (h : HashFunction) :
    ∀ i ∈ hashFragment (limbs + 1) (limb + 1) h, i.HasBytes := by
  have hjoin : Script.Plain (List.replicate limbs (ops [.fromAlt, .cat])).flatten :=
    Script.Plain.replicate (by simp) limbs
  rw [hashFragment_eq, hashJoined]
  intro i hi
  -- all instructions are plain, the hash opcode apart
  simp only [List.mem_append] at hi
  rcases hi with hi | hi | hi | hi
  · exact (plain_packAll limbs limb i hi).hasBytes
  · exact (hjoin i hi).hasBytes
  · rw [List.mem_singleton.mp hi]
    exact hasBytes_ofOpcode _
  · exact (plain_spreadDigest i hi).hasBytes

/-- A message has as many limbs as its length says. -/
theorem length_limbStacks (hlimb : limb ≠ 0) (hdvd : limb ∣ data.length) :
    (limbStacks limb data).length * limb = data.length := by
  have hcount := length_of_mem_limbStacks hlimb hdvd
  have htotal := length_packedMessage hcount
  rw [packedMessage_limbStacks, length_flatten_limbs hcount, Nat.mul_left_comm] at htotal
  omega

theorem hashFragment?_eq (hlimb : limb ≠ 0) (hdata : data ≠ []) (hdvd : limb ∣ data.length)
    (h : HashFunction) : hashFragment? data.length limb (.function h) =
      .ok (hashFragment (limbStacks limb data).length limb h) := by
  have hle : limb ≤ data.length := Nat.le_of_dvd (List.length_pos_iff.mpr hdata) hdvd
  have hmod : (data.length : Int) % limb = 0 :=
    Int.emod_eq_zero_of_dvd (Int.natCast_dvd_natCast.mpr hdvd)
  have hquot : ((data.length : Int) / limb).toNat = (limbStacks limb data).length := by
    rw [← Int.natCast_ediv, Int.toNat_natCast]
    conv_lhs => rw [← length_limbStacks hlimb hdvd]
    exact Nat.mul_div_cancel _ (by omega)
  rw [hashFragment?, if_neg (by omega)]
  simp only [hquot, Int.toNat_natCast]

theorem checkLimbs_eq (hlimb : limb ≠ 0) (hdvd : limb ∣ data.length) :
    checkLimbs data limb = .ok () := by
  have hmod : (data.length : Int) % limb = 0 :=
    Int.emod_eq_zero_of_dvd (Int.natCast_dvd_natCast.mpr hdvd)
  rw [checkLimbs, if_neg (by omega)]

theorem messageItems?_eq (hlimb : limb ≠ 0) (hdvd : limb ∣ data.length) :
    messageItems? data limb = .ok (limbStacks limb data).flatten.reverse := by
  rw [flatten_limbStacks hlimb hdvd, List.reverse_reverse, messageItems?, messageNibbles?,
    checkLimbs_eq hlimb hdvd]
  simp only [bind, Except.bind, pure, Except.pure, Int.toNat_natCast]

theorem limbStacks_ne_nil (hlimb : limb ≠ 0) (hdata : data ≠ []) (hdvd : limb ∣ data.length) :
    limbStacks limb data ≠ [] := by
  intro hnil
  have hlength := length_limbStacks hlimb hdvd
  rw [hnil, List.length_nil, Nat.zero_mul] at hlength
  exact hdata (List.length_eq_zero_iff.mp hlength.symm)

theorem hasBytes_hashFragment_limbStacks (h : HashFunction) (hlimb : limb ≠ 0) (hdata : data ≠ [])
    (hdvd : limb ∣ data.length) :
    ∀ i ∈ hashFragment (limbStacks limb data).length limb h, i.HasBytes := by
  obtain ⟨n, hn⟩ := Nat.exists_eq_succ_of_ne_zero
    (mt List.length_eq_zero_iff.mp (limbStacks_ne_nil hlimb hdata hdvd))
  obtain ⟨k, rfl⟩ := Nat.exists_eq_succ_of_ne_zero hlimb
  rw [hn]
  exact hasBytes_hashFragment n k h

/-- The fragment for a message takes its items to the half bytes of its digest. -/
theorem runs_hashFragment_limbStacks (ctx : Context) {s t : List Bytes} (h : HashFunction)
    (hlimb : limb ≠ 0) (hdata : data ≠ []) (hdvd : limb ∣ data.length)
    (hroom : 2 * data.length + s.length + t.length + 1 ≤ maxStackSize)
    (hroom' : s.length + t.length + 66 ≤ maxStackSize) :
    Runs ctx (hashFragment (limbStacks limb data).length limb h)
      ⟨(limbStacks limb data).flatten ++ s, t⟩
      ⟨(nibbleItems (Bytes.nibbles (h.digest data))).reverse ++ s, t⟩ := by
  have hcount := length_of_mem_limbStacks hlimb hdvd
  have htotal := length_packedMessage hcount
  rw [packedMessage_limbStacks] at htotal
  have hruns := runs_hashFragment (γ := ctx) (h := h) (s := s) (t := t)
    (limbStacks_ne_nil hlimb hdata hdvd) hlimb hcount pairsFit_of_mem_limbStacks
    (by rw [← htotal]; exact hroom) hroom'
  rwa [packedMessage_limbStacks] at hruns

/-- The machine computes the digest of a message from its items, whatever lies beneath them. -/
theorem execute_hashFragment (ctx : Context) (h : HashFunction) (limb : Nat) (data : Bytes)
    (u : List Bytes) (hlimb : 1 ≤ limb) (hdata : 1 ≤ data.length) (hdvd : limb ∣ data.length)
    (hroom : u.length + 2 * data.length + 1 ≤ 1000) (hroom' : u.length + 66 ≤ 1000) :
    ∃ script items nibbles r peak, hashFragment? data.length limb (.function h) = .ok script ∧
      messageItems? data limb = .ok items ∧ digestNibbles? (h.digest data) = .ok nibbles ∧
      execute ctx script (u ++ items) = .ok r ∧ r.failedAt = none ∧
      r.finalStack = u ++ nibbleItems nibbles ∧
      runFrom ctx script (.ofWitness (u ++ items)) 0 0 =
        .finished ⟨(u ++ nibbleItems nibbles).reverse, []⟩ script.length peak := by
  have hlimb₀ : limb ≠ 0 := by omega
  have hdata₀ : data ≠ [] := List.length_pos_iff.mp hdata
  have hcount := length_of_mem_limbStacks hlimb₀ hdvd
  have hlimbs := length_limbStacks hlimb₀ hdvd
  have hne : limbStacks limb data ≠ [] := by
    intro hnil
    rw [hnil, List.length_nil, Nat.zero_mul] at hlimbs
    omega
  have hfit : ∀ items ∈ limbStacks limb data, PairsFit items := by
    intro items hi
    obtain ⟨bytes, -, rfl⟩ := List.mem_map.mp (List.mem_reverse.mp hi)
    exact pairsFit_limbStack bytes
  have htotal := length_packedMessage hcount
  rw [packedMessage_limbStacks] at htotal
  -- The items lie on top of the stack, so `u` stands behind them there, turned around.
  have hstart : Machine.ofWitness (u ++ (limbStacks limb data).flatten.reverse) =
      ⟨(limbStacks limb data).flatten ++ u.reverse, []⟩ := by
    rw [Machine.ofWitness, List.reverse_append, List.reverse_reverse]
  have hruns := runs_hashFragment (γ := ctx) (h := h) (s := u.reverse) (t := []) hne hlimb₀ hcount
    hfit (by simp only [List.length_reverse, List.length_nil, maxStackSize]; omega)
    (by simp only [List.length_reverse, List.length_nil, maxStackSize]; omega)
  rw [packedMessage_limbStacks, ← List.reverse_append, ← hstart] at hruns
  have hbytes : ∃ bs, (hashFragment (limbStacks limb data).length limb h).bytes = .ok bs := by
    obtain ⟨n, hn⟩ := Nat.exists_eq_succ_of_ne_zero (mt List.length_eq_zero_iff.mp hne)
    obtain ⟨k, rfl⟩ := Nat.exists_eq_succ_of_ne_zero hlimb₀
    rw [hn]
    exact exists_bytes (hasBytes_hashFragment n k h)
  obtain ⟨bs, hbs⟩ := hbytes
  obtain ⟨r, peak, hexec, hend, hstack, -, hrun⟩ := execute_of_runs hbs hruns
  refine ⟨_, _, _, r, peak, hashFragment?_eq hlimb₀ hdata₀ hdvd h, messageItems?_eq hlimb₀ hdvd,
    if_pos (h.length_digest data), hexec, hend, ?_, hrun⟩
  rw [hstack, List.reverse_reverse]

/-- Two limbs of two bytes, above an item that is longer than any that can be pushed. -/
theorem execute_hashFragment_of_limbs : ∃ script items nibbles r peak,
    hashFragment? 4 2 (.function .sha256) = .ok script ∧
      messageItems? [0, 0x80, 0xff, 1] 2 = .ok items ∧
      digestNibbles? (HashFunction.digest .sha256 [0, 0x80, 0xff, 1]) = .ok nibbles ∧
      execute {} script ([List.replicate 521 7] ++ items) = .ok r ∧ r.failedAt = none ∧
      r.finalStack = [List.replicate 521 7] ++ nibbleItems nibbles ∧
      runFrom {} script (.ofWitness ([List.replicate 521 7] ++ items)) 0 0 =
        .finished ⟨([List.replicate 521 7] ++ nibbleItems nibbles).reverse, []⟩ script.length
          peak :=
  execute_hashFragment {} .sha256 2 [0, 0x80, 0xff, 1] [List.replicate 521 7] (by decide)
    (by decide) (by decide) (by decide) (by decide)

end Fragment

end PrefixFlow
