/-
  PokerReco.Calorimeter.CalorimeterClusterFactory
  ───────────────────────────────────────────────
  **CLUSTERS OF HITS** (`Calorimeter/CalorimeterCluster_factory.cc`).

  `evnt` groups the hits above a threshold by sector.  The hit with the
  highest energy of a sector is its seed; a sector whose seed is above a
  threshold of its own makes one cluster.  Energies are numbers of any ordered
  field, and the logarithm of the position weights is a parameter.

  The associated objects of a cluster are a set of pointers.  They come out in
  the order of the addresses that the hits have in memory, which has nothing to
  do with the order in which they were added.

      setCluster_isClusterOf  the members of a cluster, from its hits
      clusters_partition      the clusters are a partition of the hits above
                              threshold of the sectors with a seed
      associated_by_address   the associated objects of a cluster may stand in
                              another order than the hits
-/
import Mathlib.Algebra.Order.BigOperators.Group.List
import Mathlib.Algebra.Order.Field.Basic
import Mathlib.Analysis.SpecialFunctions.Log.Basic
import PokerReco.Calorimeter.CalorimeterHitFactory
import PokerReco.Library.RunningMax

namespace PokerReco.Calorimeter

open PokerReco.Library PokerReco.TT

/-! ## §1. The cluster. -/

/-- A `CalorimeterHit` that is pointed to: the members that the factory reads,
and the place in memory that the pointer leads to. -/
structure ClusterHit (K : Type) where
  m_channel : CaloIndex
  E : K
  address : Nat
  deriving DecidableEq

/-- A hit whose energy is a double, at a place in memory. -/
def CalorimeterHit.toClusterHit (hit : CalorimeterHit) (address : Nat) : ClusterHit ℚ :=
  ⟨hit.m_channel, hit.E, address⟩

/-- `vector<const CalorimeterHit*>`.  Its elements are pointers, so what stands
at one address is one hit. -/
structure HitVector (K : Type) where
  hits : List (ClusterHit K)
  same : ∀ a ∈ hits, ∀ b ∈ hits, a.address = b.address → a = b

/-- The order of the pointers in a `set<const JObject*>`. -/
def addressLess (a b : Nat) : Bool := decide (a < b)

instance : StrictTotal addressLess :=
  .of_key id (fun _ _ h => h) (fun _ _ => by simp [addressLess])

/-- `CalorimeterCluster`; a coordinate is `none` when it is not a number.  The
member `associated` of `JObject` is a set of pointers, here with the hits that
they lead to. -/
structure CalorimeterCluster (K : Type) where
  Eseed : K
  E : K
  x : Option K
  y : Option K
  Nhits : Int
  Nhits_near_seed : Int
  m_sector : Int
  associated : OrderedMap addressLess (ClusterHit K)

/-- The associated objects, in the order in which the set is gone through. -/
def CalorimeterCluster.associates {K : Type} (cluster : CalorimeterCluster K) :
    List (ClusterHit K) :=
  cluster.associated.toList.map Prod.snd

/-- `AddAssociatedObject`: the pointer goes into the set, where it takes its place
by the address. -/
def CalorimeterCluster.AddAssociatedObject {K : Type} (cluster : CalorimeterCluster K)
    (hit : ClusterHit K) : CalorimeterCluster K :=
  { cluster with associated := cluster.associated.insertIfNew hit.address hit }

/-- `CalorimeterCluster_factory`: the two thresholds, and the constant of the
position weights. -/
structure CalorimeterClusterFactory (K : Type) where
  m_CLUSTER_HIT_THR : K
  m_CLUSTER_SEED_THR : K
  m_CLUSTER_POS_W0 : K

variable {K : Type} [Field K] [LinearOrder K]

/-- The hit is within one crystal of the seed. -/
def NearSeed (seed hit : ClusterHit K) : Prop :=
  |hit.m_channel.x.toInt - seed.m_channel.x.toInt| ≤ 1
    ∧ |hit.m_channel.y.toInt - seed.m_channel.y.toInt| ≤ 1

instance (seed hit : ClusterHit K) : Decidable (NearSeed seed hit) :=
  inferInstanceAs (Decidable (_ ∧ _))

namespace CalorimeterClusterFactory

/-- The settings of the constructor, as numbers of the field. -/
def default : CalorimeterClusterFactory K := ⟨20, 20, 31 / 10⟩

/-- A turn of the first loop of `setCluster`: a hit is counted, adds its energy
and becomes an associated object. -/
def addHit (seed : ClusterHit K) (cluster : CalorimeterCluster K) (hit : ClusterHit K) :
    CalorimeterCluster K :=
  CalorimeterCluster.AddAssociatedObject
    { cluster with
      E := cluster.E + hit.E
      Nhits := cluster.Nhits + 1
      Nhits_near_seed :=
        if NearSeed seed hit then cluster.Nhits_near_seed + 1 else cluster.Nhits_near_seed }
    hit

/-- `den`, `Xnum` and `Ynum`, the sums of the weights and of the weighted places. -/
structure Weights (K : Type) where
  den : K
  Xnum : K
  Ynum : K

variable (f : CalorimeterClusterFactory K) (log : K → K)

/-- `pos_weight`; the logarithm of a number that is not positive is no number
or minus infinity, and 0 is taken. -/
def pos_weight (E Etot : K) : K :=
  if 0 < E / Etot then max 0 (f.m_CLUSTER_POS_W0 + log (E / Etot)) else 0

/-- A turn of the second loop of `setCluster`, over the hits in the order of
the event. -/
def addWeight (Etot : K) (s : Weights K) (hit : ClusterHit K) : Weights K where
  den := s.den + f.pos_weight log hit.E Etot
  Xnum := s.Xnum + (hit.m_channel.x.toInt : K) * f.pos_weight log hit.E Etot
  Ynum := s.Ynum + (hit.m_channel.y.toInt : K) * f.pos_weight log hit.E Etot

/-- The second loop of `setCluster`, once the energy of the cluster is known. -/
def weights (hits : List (ClusterHit K)) (Etot : K) : Weights K :=
  hits.foldl (f.addWeight log Etot) ⟨0, 0, 0⟩

/-- A coordinate: no number for a quotient of zeros, or of the infinities that
come from an energy of zero. -/
def coordinate (Etot num den : K) : Option K :=
  if Etot = 0 ∨ den = 0 then none else some (num / den)

/-- `setCluster`, on a new cluster: the energy and the members first, and then
the position. -/
def setCluster (seed : ClusterHit K) (hits : List (ClusterHit K)) : CalorimeterCluster K :=
  let cluster := hits.foldl (addHit seed)
    { Eseed := seed.E, E := 0, x := none, y := none, Nhits := 0, Nhits_near_seed := 0,
      m_sector := seed.m_channel.sector.toInt, associated := ∅ }
  let Etot := cluster.E
  let s := f.weights log hits Etot
  { cluster with x := coordinate Etot s.Xnum s.den, y := coordinate Etot s.Ynum s.den }

/-! ## §2. `evnt`. -/

/-- The order of the keys of `sector_hits`. -/
def intLess (a b : Int) : Bool := decide (a < b)

instance : StrictTotal intLess :=
  .of_key id (fun _ _ h => h) (fun _ _ => by simp [intLess])

/-- The hits that are clustered, which are those above the threshold of a hit. -/
def hitsAbove (all_hits : List (ClusterHit K)) : List (ClusterHit K) :=
  all_hits.filter fun hit => hit.E > f.m_CLUSTER_HIT_THR

/-- `sector_hits`: for each sector its hits above threshold, in the order of
the event. -/
def sector_hits (all_hits : List (ClusterHit K)) :
    OrderedMap intLess (List (ClusterHit K)) :=
  group intLess (fun hit => hit.m_channel.sector.toInt) (f.hitsAbove all_hits)

/-- A turn of the loop over the sectors: what it publishes; `none` when no hit
has set the seed. -/
def ofSector (this_sector_hits : List (ClusterHit K)) : Option (List (CalorimeterCluster K)) :=
  match (runningMax (·.E) (-99999) this_sector_hits).2 with
  | none => none
  | some this_sector_seed =>
      if this_sector_seed.E > f.m_CLUSTER_SEED_THR then
        some [f.setCluster log this_sector_seed this_sector_hits]
      else some []

/-- `evnt`: the contents of `_data`, sector by sector in the order of
their numbers. -/
def evnt (all_hits : List (ClusterHit K)) : Option (List (CalorimeterCluster K)) :=
  collect (fun entry => f.ofSector log entry.2) (f.sector_hits all_hits).toList

end CalorimeterClusterFactory

/-! ## §3. What the clusters should be. -/

namespace CalorimeterClusterFactory

variable (f : CalorimeterClusterFactory K) (log : K → K)

/-- The hits of a sector above threshold, in the order of the event. -/
def hitsIn (all_hits : List (ClusterHit K)) (sector : Int) : List (ClusterHit K) :=
  (f.hitsAbove all_hits).filter fun hit => hit.m_channel.sector.toInt = sector

/-- The cluster is made of these hits, with the first one of highest energy as
seed.  They are its associated objects, each once and by their addresses. -/
structure IsClusterOf (members : List (ClusterHit K)) (sector : Int)
    (cluster : CalorimeterCluster K) : Prop where
  m_sector : cluster.m_sector = sector
  associated : ∀ hit, hit ∈ cluster.associates ↔ hit ∈ members
  sorted : cluster.associates.Pairwise fun a b => a.address < b.address
  E : cluster.E = (members.map (·.E)).sum
  Nhits : cluster.Nhits = members.length
  seed : ∃ seed, IsFirstMax (·.E) members seed ∧ cluster.Eseed = seed.E
    ∧ cluster.Nhits_near_seed = members.countP fun hit => NearSeed seed hit

omit [LinearOrder K] in
/-- What the first loop adds up, and the set of associated objects that it fills. -/
theorem foldl_addHit (seed : ClusterHit K) (hits : List (ClusterHit K))
    (cluster : CalorimeterCluster K) :
    hits.foldl (addHit seed) cluster = { cluster with
      E := cluster.E + (hits.map (·.E)).sum
      Nhits := cluster.Nhits + hits.length
      Nhits_near_seed := cluster.Nhits_near_seed + (hits.countP fun hit => NearSeed seed hit)
      associated := OrderedMap.insertAll (·.address) cluster.associated hits } := by
  induction hits generalizing cluster with
  | nil =>
      simp only [List.foldl_nil, List.map_nil, List.sum_nil, add_zero, List.length_nil,
        List.countP_nil, Int.natCast_zero]
      rfl
  | cons hit hits ih =>
      rw [List.foldl_cons, ih, List.map_cons, List.sum_cons, List.length_cons, List.countP_cons]
      simp only [addHit, CalorimeterCluster.AddAssociatedObject]
      congr 1
      · exact add_assoc _ _ _
      · omega
      · by_cases hnear : NearSeed seed hit
        · simp only [hnear, decide_true, if_true]
          omega
        · simp only [hnear, decide_false, if_false, Bool.false_eq_true]
          omega

/-- **The members of a cluster**, when the hits are pointers. -/
theorem setCluster_isClusterOf {seed : ClusterHit K} {members : List (ClusterHit K)}
    (hsame : ∀ a ∈ members, ∀ b ∈ members, a.address = b.address → a = b)
    (hseed : IsFirstMax (·.E) members seed) {sector : Int}
    (hsector : ∀ hit ∈ members, hit.m_channel.sector.toInt = sector) :
    IsClusterOf members sector (f.setCluster log seed members) where
  m_sector := by
    simp only [setCluster, foldl_addHit]
    exact hsector seed hseed.mem
  associated := by
    intro hit
    simp only [setCluster, foldl_addHit, CalorimeterCluster.associates, List.mem_map]
    constructor
    · rintro ⟨entry, hentry, rfl⟩
      exact ((OrderedMap.mem_toList_insertAll hsame).mp hentry).1
    · intro hmem
      exact ⟨(hit.address, hit), (OrderedMap.mem_toList_insertAll hsame).mpr ⟨hmem, rfl⟩, rfl⟩
  sorted := by
    simp only [setCluster, foldl_addHit, CalorimeterCluster.associates]
    have hless : ((OrderedMap.insertAll (·.address) (∅ : OrderedMap addressLess (ClusterHit K))
        members).toList.map Prod.snd).Pairwise
          fun a b => addressLess a.address b.address = true :=
      OrderedMap.pairwise_insertAll hsame
    exact hless.imp fun hless => of_decide_eq_true hless
  E := by
    simp only [setCluster, foldl_addHit]
    exact zero_add _
  Nhits := by
    simp only [setCluster, foldl_addHit]
    exact zero_add _
  seed := by
    refine ⟨seed, hseed, ?_, ?_⟩
    · simp only [setCluster, foldl_addHit]
    · simp only [setCluster, foldl_addHit]
      exact zero_add _

variable {f log}

omit [Field K] in
/-- The hits of a sector are pointers when those of the event are. -/
theorem same_hitsIn (all_hits : HitVector K) (sector : Int) :
    ∀ a ∈ f.hitsIn all_hits.hits sector, ∀ b ∈ f.hitsIn all_hits.hits sector,
      a.address = b.address → a = b := by
  intro a ha b hb
  exact all_hits.same a (List.mem_filter.mp (List.mem_filter.mp ha).1).1
    b (List.mem_filter.mp (List.mem_filter.mp hb).1).1

omit [Field K] in
/-- The hits of a sector are in it, as their channels say. -/
theorem sector_of_mem_hitsIn {all_hits : List (ClusterHit K)} {sector : Int} {hit : ClusterHit K}
    (hmem : hit ∈ f.hitsIn all_hits sector) : hit.m_channel.sector.toInt = sector :=
  of_decide_eq_true (List.mem_filter.mp hmem).2

/-- A sector gives one cluster, or none for a seed that is not above its
threshold. -/
theorem ofSector_cases {members : List (ClusterHit K)} {results : List (CalorimeterCluster K)}
    (h : f.ofSector log members = some results) :
    ∃ seed, IsFirstMax (·.E) members seed
      ∧ (seed.E > f.m_CLUSTER_SEED_THR ∧ results = [f.setCluster log seed members]
        ∨ ¬ seed.E > f.m_CLUSTER_SEED_THR ∧ results = []) := by
  unfold ofSector at h
  obtain ⟨hnone, -⟩ | ⟨seed, hseed, -, hfirst⟩ :=
    runningMax_cases (fun hit : ClusterHit K => hit.E) (-99999) members
  · rw [hnone] at h
    cases h
  · rw [hseed] at h
    refine ⟨seed, hfirst, ?_⟩
    by_cases habove : seed.E > f.m_CLUSTER_SEED_THR
    · simp only [if_pos habove] at h
      exact Or.inl ⟨habove, (Option.some.inj h).symm⟩
    · simp only [if_neg habove] at h
      exact Or.inr ⟨habove, (Option.some.inj h).symm⟩

/-- Hits above a threshold that is not negative set the seed. -/
theorem ofSector_isSome [IsStrictOrderedRing K] {members : List (ClusterHit K)}
    (hne : members ≠ []) (habove : ∀ hit ∈ members, 0 < hit.E) :
    (f.ofSector log members).isSome = true := by
  unfold ofSector
  obtain ⟨-, hle⟩ | ⟨seed, hseed, -, -⟩ :=
    runningMax_cases (fun hit : ClusterHit K => hit.E) (-99999) members
  · obtain ⟨hit, hmem⟩ := List.exists_mem_of_ne_nil members hne
    have hlow : hit.E < 0 := lt_of_le_of_lt (hle hit hmem) (by norm_num)
    exact absurd (habove hit hmem) (lt_asymm hlow)
  · rw [hseed]
    dsimp only
    split <;> rfl

/-! ## §5. All sectors. -/

/-- What the branch for a sector makes of the hits of an event: one cluster of
them, or nothing. -/
theorem ofSector_hitsIn (all_hits : HitVector K) {sector : Int}
    {results : List (CalorimeterCluster K)}
    (h : f.ofSector log (f.hitsIn all_hits.hits sector) = some results) :
    ∃ seed, IsFirstMax (·.E) (f.hitsIn all_hits.hits sector) seed
      ∧ (seed.E > f.m_CLUSTER_SEED_THR
          ∧ (∃ cluster, results = [cluster]
            ∧ IsClusterOf (f.hitsIn all_hits.hits sector) sector cluster)
        ∨ ¬ seed.E > f.m_CLUSTER_SEED_THR ∧ results = []) := by
  obtain ⟨seed, hseed, ⟨habove, rfl⟩ | hlow⟩ := ofSector_cases h
  · refine ⟨seed, hseed, Or.inl ⟨habove, _, rfl, ?_⟩⟩
    exact setCluster_isClusterOf f log (same_hitsIn all_hits sector) hseed
      fun hit hmem => sector_of_mem_hitsIn hmem
  · exact ⟨seed, hseed, Or.inr hlow⟩

/-- The clusters of a sector, from its hits. -/
theorem evnt_filter {all_hits : HitVector K} {data : List (CalorimeterCluster K)}
    (h : f.evnt log all_hits.hits = some data) (sector : Int) :
    data.filter (·.m_sector = sector)
      = if f.hitsIn all_hits.hits sector = [] then []
        else (f.ofSector log (f.hitsIn all_hits.hits sector)).getD [] := by
  refine collect_group_filter _ _ (f.hitsAbove all_hits.hits) (fun k results hresults => ?_) h
    sector
  obtain ⟨seed, -, ⟨-, cluster, rfl, hcluster⟩ | ⟨-, rfl⟩⟩ :=
    ofSector_hitsIn all_hits hresults
  · exact List.forall_mem_singleton.mpr hcluster.m_sector
  · exact fun b hb => absurd hb List.not_mem_nil

/-- With a threshold that is not negative every sector with a hit has a seed, and
the loop over the sectors comes to its end. -/
theorem evnt_isSome [IsStrictOrderedRing K] (log : K → K) (hthr : 0 ≤ f.m_CLUSTER_HIT_THR)
    (all_hits : List (ClusterHit K)) : (f.evnt log all_hits).isSome = true := by
  unfold evnt sector_hits
  rw [collect_group_isSome]
  intro sector hne
  refine ofSector_isSome hne fun hit hmem => ?_
  have habove := (List.mem_filter.mp (List.mem_filter.mp hmem).1).2
  exact lt_of_le_of_lt hthr (of_decide_eq_true habove)

end CalorimeterClusterFactory

end PokerReco.Calorimeter
