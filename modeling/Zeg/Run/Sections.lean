import Zeg.Base.Reader
import Zeg.Run

-- The sections before the ancestors are read without a look at what follows them.
namespace Zeg.Run

open Base Zeg.Stream Fork Consensus List

theorem local_readU64 : Local readU64 := Local.chunk 8 (fun bytes => .ok (leNat bytes)) _

theorem local_advance {β : Type} (n : Nat) {k : Bytes → Bytes → Except String (β × Bytes)} (hk : ∀ bytes, Local (k bytes)) :
    Local fun cursor => advanceChecked n cursor >>= fun rest => k (cursor.take n) rest := by
  have hchunk := (Local.chunk n (fun bytes => .ok bytes) "stream: advance past end of input").bind hk
  convert hchunk using 2 with cursor
  unfold advanceChecked
  split <;> rfl

theorem local_readWithdrawals (n : Nat) : Local (readWithdrawals n) := by
  induction n with
  | zero => exact Local.pure []
  | succ n ih =>
    exact @local_advance _ kWithdrawalRecordSize
      (fun bytes rest => readWithdrawals n rest >>= fun x => .ok (Withdrawal.view bytes :: x.1, x.2))
      fun bytes => ih.map (Withdrawal.view bytes :: ·)

theorem local_readConsensusInfo (build : Build) : Local (readConsensusInfo build) := by
  refine @local_advance _ kFixedPrefixSize (fun bytes rest =>
    (ConsensusInfo.ofPrefix bytes).check build >>= fun _ =>
      if rest.length / kWithdrawalRecordSize < (ConsensusInfo.ofPrefix bytes).withdrawalsCount.toNat then
        .error "ConsensusInfo: withdrawals_count exceeds input size"
      else readWithdrawals (ConsensusInfo.ofPrefix bytes).withdrawalsCount.toNat rest >>= fun x =>
        .ok ({ ConsensusInfo.ofPrefix bytes with withdrawals := x.1 }, x.2)) fun bytes => ?_
  refine Local.lift _ fun _ => ?_
  exact ((local_readWithdrawals _).map fun withdrawals => { ConsensusInfo.ofPrefix bytes with withdrawals }).guard
    (fun length => length / kWithdrawalRecordSize < (ConsensusInfo.ofPrefix bytes).withdrawalsCount.toNat) _

section

variable (keccak : Bytes → Bytes32) (ecrecover : Bytes32 → Word → Word → Nat → Option Address)

theorem local_readEnvelopes (count : Nat) : Local (Transactions.readEnvelopes keccak ecrecover count) := by
  induction count with
  | zero => exact Local.pure []
  | succ count ih =>
    have hviews : ∀ env, Local fun rest => Transactions.readEnvelope keccak ecrecover env >>= fun v =>
        Transactions.readEnvelopes keccak ecrecover count rest >>= fun x => .ok (v :: x.1, x.2) := fun env =>
      Local.lift _ fun v => ih.map (v :: ·)
    refine @Local.bind _ _ _ (fun size cursor => advanceChecked size cursor >>= fun rest =>
      advanceChecked (padding size) rest >>= fun rest =>
        Transactions.readEnvelope keccak ecrecover (cursor.take size) >>= fun v =>
          Transactions.readEnvelopes keccak ecrecover count rest >>= fun x => .ok (v :: x.1, x.2))
      local_readU64 fun size => ?_
    exact local_advance size fun env => local_advance (padding size) fun _ => hviews env

theorem local_readSection : Local (Transactions.readSection keccak ecrecover) :=
  @Local.bind _ _ _ (fun count cursor =>
    if cursor.length / 8 < count then .error "Transactions: count exceeds input size"
    else Transactions.readEnvelopes keccak ecrecover count cursor) local_readU64 fun count =>
      (local_readEnvelopes keccak ecrecover count).guard (fun length => length / 8 < count) _

end

theorem local_readCodes (count : Nat) : Local (readCodes count) := by
  induction count with
  | zero => exact Local.pure []
  | succ count ih =>
    refine @Local.bind _ _ _ (fun size cursor => advanceChecked size cursor >>= fun rest =>
      advanceChecked (padding size) rest >>= fun rest =>
        readCodes count rest >>= fun x => .ok (cursor.take size :: x.1, x.2)) local_readU64 fun size => ?_
    exact local_advance size fun code => local_advance (padding size) fun _ => ih.map (code :: ·)

theorem local_readContracts : Local readContracts :=
  @Local.bind _ _ _ (fun count cursor =>
    if cursor.length / 8 < count then .error "Contracts: count exceeds input size" else readCodes count cursor)
    local_readU64 fun count => (local_readCodes count).guard (fun length => length / 8 < count) _

theorem readPreamble_ok {input cursor : Bytes} (h : readPreamble input = .ok cursor) :
    ∃ seed, input = seed ++ cursor ∧ ∀ cursor' : Bytes, readPreamble (seed ++ cursor') = .ok cursor' := by
  unfold readPreamble at h
  split at h
  · cases h
  · split at h
    · cases h
    · rename_i hmagic
      split at h
      · cases h
      · rename_i hversion
        split at h
        · cases h
        · rename_i hlen
          cases h
          have hseed : (input.take 24).length = 24 := by
            rw [length_take]
            omega
          refine ⟨input.take 24, (take_append_drop 24 input).symm, fun cursor' => ?_⟩
          have hfour : (input.take 24 ++ cursor').take 4 = input.take 4 := by
            rw [take_append_of_le_length (by omega), take_take]
            rfl
          have hnext : ((input.take 24 ++ cursor').drop 4).take 4 = (input.drop 4).take 4 := by
            rw [drop_append_of_le_length (by omega), take_append_of_le_length (by simp; omega),
              drop_take, take_take]
            rfl
          unfold readPreamble
          rw [hfour, hnext, if_neg (by simp; omega), if_neg hmagic, if_neg hversion, if_neg (by simp; omega),
            drop_left' hseed]

theorem local_readLeading (build : Build) (p : Platform) : Local (readLeading build p) := by
  have hsections := @Local.bind _ _ _ (fun c cursor =>
    Transactions.readSection p.keccak p.ecrecover cursor >>= fun t =>
      readContracts t.2 >>= fun k => .ok ((⟨c, t.1, k.1⟩ : Leading), k.2)) (local_readConsensusInfo build) fun c =>
    @Local.bind _ _ _ (fun t cursor => readContracts cursor >>= fun k => .ok ((⟨c, t, k.1⟩ : Leading), k.2))
      (local_readSection p.keccak p.ecrecover) fun t => local_readContracts.map (Leading.mk c t)
  intro input lead rest h
  obtain ⟨cursor, hpreamble, hread⟩ := bind_eq_ok.1 h
  obtain ⟨front, rfl, hfront⟩ := hsections cursor lead rest hread
  obtain ⟨seed, rfl, hseed⟩ := readPreamble_ok hpreamble
  refine ⟨seed ++ front, by rw [append_assoc], fun rest' hlen => ?_⟩
  rw [append_assoc]
  exact bind_eq_ok.2 ⟨front ++ rest', hseed _, hfront rest' hlen⟩

end Zeg.Run
