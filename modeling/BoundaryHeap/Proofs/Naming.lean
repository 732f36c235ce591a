import BoundaryHeap.Proofs.Consistency

namespace BoundaryHeap

namespace Referrer

variable {f g : Referrer}

def headWords : Set UInt32 :=
  Set.range fun l => (head l).encode

def nextWords (limit : Nat) : Set UInt32 :=
  (fun c => (next c).encode) '' Set.Iio limit

theorem encode_inj (hf : f.Below headFlag) (hg : g.Below headFlag) (h : f.encode = g.encode) :
    f = g := by
  have hdecode := hf.decode_encode
  rw [h, hg.decode_encode] at hdecode
  exact (Option.some.inj hdecode).symm

theorem maxRegion_le_headFlag : maxRegion ≤ headFlag := by decide

/-- The words of heads, the words of links in front of `limit` and the word of no field are kept
apart. -/
structure WordsApart (limit : Nat) : Prop where
  head_next : ∀ w ∈ headWords, w ∉ nextWords limit
  head_nil : nilWord ∉ headWords
  next_nil : nilWord ∉ nextWords limit

theorem wordsApart {limit : Nat} (hlimit : limit ≤ headFlag) : WordsApart limit := by
  have hnil {f : Referrer} (hf : f.Below headFlag) : f.encode ≠ nilWord := by
    intro he
    have hdecode := hf.decode_encode
    rw [he, decode_nilWord] at hdecode
    cases hdecode
  have hnext {c : Nat} (hc : c < limit) : (next c).Below headFlag := Nat.lt_of_lt_of_le hc hlimit
  refine ⟨?_, ?_, ?_⟩
  · rintro _ ⟨l, rfl⟩ ⟨c, hc, he⟩
    cases encode_inj (hnext hc) (g := .head l) trivial he
  · rintro ⟨l, he⟩
    exact hnil (f := .head l) trivial he
  · rintro ⟨c, hc, he⟩
    exact hnil (hnext hc) he

end Referrer

namespace Store

variable {s : Store} {c : Nat} {f : Referrer}

/-- The word that `c` stores names the field `f` and no other one. -/
structure Names (s : Store) (c : Nat) (f : Referrer) : Prop where
  inside : f.Inside s.region
  reads : s.region.referrerOf c = .ok (some f)
  word : s.region.referrerWord c = .ok f.encode
  only : ∀ g : Referrer, g.Below maxRegion → s.region.referrerWord c = .ok g.encode → g = f

theorem Names.of_reads (hlen : s.region.len ≤ maxRegion) (hf : f.Inside s.region)
    (hreads : s.region.referrerOf c = .ok (some f)) : s.Names c f := by
  have hword : s.region.referrerWord c = .ok f.encode := by
    obtain ⟨w, hw, hdecode⟩ := Fault.bind_eq_ok_iff.1 hreads
    rw [hw, Referrer.encode_decode (Except.ok.inj hdecode)]
  have hbelow := hf.below.mono (hlen.trans Referrer.maxRegion_le_headFlag)
  refine ⟨hf, hreads, hword, fun g hg hword' => ?_⟩
  rw [hword] at hword'
  exact (Referrer.encode_inj hbelow (hg.mono Referrer.maxRegion_le_headFlag)
    (Except.ok.inj hword')).symm

theorem setReferrer_names (hlen : s.region.len ≤ maxRegion) (hf : f.Inside s.region)
    (hc : s.region.Holds c) : ∃ s', setReferrer f (some c) s = .ok () s' ∧ s'.Names c f := by
  have hheld : ∀ d, some c = some d → s.region.Holds d := by
    rintro d ⟨⟩
    exact hc
  have hlen' : (s.tell f (some c)).region.len = s.region.len := len_tell f (some c)
  have hword : (s.tell f (some c)).region.referrerAt c = f.encode := referrerAt_tell_same hc f
  refine ⟨s.tell f (some c), setReferrer_eq hheld f, .of_reads ?_ ?_ ?_⟩
  · rw [hlen']
    exact hlen
  · cases f with
    | head l => trivial
    | next d => exact Region.Holds.of_len hf hlen'
  · rw [Region.referrerOf_eq (hc.of_len hlen').1 (hc.of_len hlen').2, hword,
      Referrer.decode_encode hf (hlen.trans Referrer.maxRegion_le_headFlag)]

end Store

namespace World

/-- Any field that a word has room for is read as it was written, and any word that is read as a
field is what this field is written as. The words of heads, of links and of no field are kept apart.
So a chunk that is told its field names this field only, and in a heap in use every listed chunk
names the one field that refers to it. -/
theorem referrers_named :
    (∀ f : Referrer, f.Below Referrer.headFlag → Referrer.decode f.encode = some f) ∧
      (∀ word f, Referrer.decode word = some f → f.encode = word) ∧
      Referrer.WordsApart maxRegion ∧
      (∀ (s : Store) (c : Nat) (f : Referrer), s.region.len ≤ maxRegion → f.Inside s.region →
        s.region.Holds c → ∃ s', Store.setReferrer f (some c) s = .ok () s' ∧ s'.Names c f) ∧
      ∀ (w : World) (l : ListId), w.Reachable → ∃ xs, w.heap.store.members l = .ok xs ∧
        ∀ c ∈ xs, ∃ f, w.heap.store.Names c f ∧
          Store.target f w.heap.store = .ok (some c) w.heap.store := by
  refine ⟨fun _ => Referrer.Below.decode_encode, fun _ _ => Referrer.encode_decode,
    Referrer.wordsApart Referrer.maxRegion_le_headFlag, fun _ _ _ => Store.setReferrer_names, fun w l hw => ?_⟩
  obtain ⟨A, hA⟩ := hw.tracks
  have hs := hA.intact.store
  refine ⟨_, hs.members l, fun c hc => ?_⟩
  obtain ⟨xs, ys, he⟩ := List.append_of_mem hc
  obtain ⟨hreads, htarget⟩ := hs.linked.referrer he
  refine ⟨_, .of_reads ?_ ?_ hreads, htarget⟩
  · rw [hs.len]
    exact hs.valid.bounded
  · exact hs.linked.inside fun d hd => by simp [he, hd]

/-- One half of a region is told that the link of the other one refers to it, and the one chunk of a
fresh heap names its field. -/
theorem halves_named :
    let s : Store := ⟨⟨0x1000, ⟨Array.replicate 64 0⟩⟩, .empty⟩
    (∃ s', Store.setReferrer (.next 32) (some 0) s = .ok () s' ∧ s'.Names 0 (.next 32)) ∧
      ∃ xs, sample.heap.store.members (.clean 6) = .ok xs ∧
        ∀ c ∈ xs, ∃ f, sample.heap.store.Names c f ∧
          Store.target f sample.heap.store = .ok (some c) sample.heap.store :=
  ⟨referrers_named.2.2.2.1 _ 0 (.next 32) (by decide) ⟨rfl, by decide⟩ ⟨rfl, by decide⟩,
    referrers_named.2.2.2.2 sample (.clean 6) reachable_sample⟩

end World

end BoundaryHeap
