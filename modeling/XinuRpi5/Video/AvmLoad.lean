/- source: device/video/avm.c
   digest: avm_load, and the bytes of a module that decide whether its tables fit. -/

import XinuRpi5.Video.Avm
import Mathlib.Logic.Function.Iterate

/-!
The loader reads a string table, a class table and, in the second format, a mesh. A table
that is longer than its array is cut, and what follows is read from where the loader
stopped. The vertex normals and the marks for parallel dispatch are left out: they are
computed from these tables and change none of them.
-/

namespace XinuRpi5.Video.AvmLoad

open Avm

section Loader

/-- The staging buffer, and the length of what was uploaded into it. -/
structure Image where
  byte : Nat → UInt8
  len : Nat

namespace Image

def u8 (im : Image) (p : Nat) : Nat := (im.byte p).toNat

def u16 (im : Image) (p : Nat) : Nat := im.u8 p + im.u8 (p + 1) * 256

def u32 (im : Image) (p : Nat) : Nat := im.u16 p + im.u16 (p + 2) * 65536

def i16 (im : Image) (p : Nat) : Int :=
  if 32768 ≤ im.u16 p then (im.u16 p : Int) - 65536 else im.u16 p

def bytes (im : Image) (p n : Nat) : List UInt8 := (List.range n).map fun k => im.byte (p + k)

end Image

def vmStrMax : Nat := 512

def vmStrbufMax : Nat := 16384

def vmMaxClasses : Nat := 16

def vmMaxMethods : Nat := 320

def meshMaxV : Nat := 32768

def meshMaxT : Nat := 49152

/-- `vm_str` as offsets into `vm_strbuf`, and the part of `vm_strbuf` in use. -/
structure Strings where
  offs : List Nat
  buf : List UInt8

/-- `vmmeth_t`. -/
structure MethodEntry where
  name : Nat
  nParams : Nat
  codeLen : Nat
  codeOff : Nat

/-- `vmclass_t`; `m` is the part of the method array that was loaded. -/
structure ClassEntry where
  name : Nat
  nFields : Nat
  nMethods : Nat
  m : List MethodEntry

structure Vertex where
  x : Int
  y : Int
  z : Int
  r : Nat
  g : Nat
  b : Nat

structure Mesh where
  nt : Nat
  scale : Int
  vertices : List Vertex
  idx : List Int

/-- The tables of a module; `vm_n_str`, `vm_n_class` and `mesh_nv` are the lengths. -/
structure Loaded where
  strings : Strings
  classes : List ClassEntry
  mesh : Option Mesh

variable (im : Image)

def loadStrings : Nat → Nat → Strings → Option (Strings × Nat)
  | 0, p, t => some (t, p)
  | n + 1, p, t =>
    if im.len < p + 2 then none
    else
      let l := im.u16 p
      if im.len < p + 2 + l ∨ vmStrbufMax < t.buf.length + l + 1 then none
      else loadStrings n (p + 2 + l)
        ⟨t.offs ++ [t.buf.length], t.buf ++ im.bytes (p + 2) l ++ [0]⟩

def loadMethods : Nat → Nat → Option (List MethodEntry × Nat)
  | 0, p => some ([], p)
  | n + 1, p =>
    if im.len < p + 5 then none
    else
      let mt : MethodEntry := ⟨im.u16 p, im.u8 (p + 2), im.u16 (p + 3), p + 5⟩
      if im.len < mt.codeOff + mt.codeLen then none
      else do
        let (ms, q) ← loadMethods n (mt.codeOff + mt.codeLen)
        return (mt :: ms, q)

def loadClasses : Nat → Nat → Option (List ClassEntry × Nat)
  | 0, p => some ([], p)
  | n + 1, p =>
    if im.len < p + 6 then none
    else do
      let (ms, q) ← loadMethods im (min (im.u16 (p + 4)) vmMaxMethods) (p + 6)
      let (cs, q) ← loadClasses n q
      return (⟨im.u16 p, im.u16 (p + 2), im.u16 (p + 4), ms⟩ :: cs, q)

def vertexAt (p : Nat) : Vertex :=
  ⟨im.i16 p, im.i16 (p + 2), im.i16 (p + 4), im.u8 (p + 6), im.u8 (p + 7), im.u8 (p + 8)⟩

/-- Entry `t` of the triangle list behind `nv` vertices. -/
def cornerIdx (p nv t : Nat) : Int :=
  let idxw := im.u8 (p + 8)
  let q := p + 13 + nv * 9 + t * idxw
  if idxw = 2 then (im.u16 q : Int) else wrapInt (im.u32 q)

def loadMesh (p : Nat) : Option Mesh :=
  if im.len < p + 13 then none
  else
    let nv := wrapInt (im.u32 p)
    let nt := wrapInt (im.u32 (p + 4))
    let idxw := im.u8 (p + 8)
    if nv < 0 ∨ nt < 0 ∨ meshMaxV < nv ∨ meshMaxT < nt then none
    else if (im.len : Int) < p + 13 + nv * 9 + nt * 3 * idxw then none
    else
      some ⟨nt.toNat, wrapInt (im.u32 (p + 9)),
        (List.range nv.toNat).map fun i => vertexAt im (p + 13 + i * 9),
        (List.range (nt.toNat * 3)).map (cornerIdx im p nv.toNat)⟩

/-- The second format and a mesh region at `p`. -/
def MeshMarked (p : Nat) : Prop := im.byte 3 = 50 ∧ p < im.len ∧ im.byte p = 1

instance (p : Nat) : Decidable (MeshMarked im p) := inferInstanceAs (Decidable (_ ∧ _))

def Magic : Prop :=
  im.byte 0 = 65 ∧ im.byte 1 = 86 ∧ im.byte 2 = 77 ∧ (im.byte 3 = 49 ∨ im.byte 3 = 50)

instance : Decidable (Magic im) := inferInstanceAs (Decidable (_ ∧ _))

/-- `avm_load`: the tables of a module that it accepts. -/
def avmLoad : Option Loaded :=
  if im.len < 6 ∨ ¬ Magic im then none
  else do
    let (strings, p) ← loadStrings im (min (im.u16 4) vmStrMax) 6 ⟨[], []⟩
    if im.len < p + 2 then none
    else do
      let (classes, p) ← loadClasses im (min (im.u16 p) vmMaxClasses) (p + 2)
      let mesh ← if MeshMarked im p then (loadMesh im (p + 1)).map some else some none
      if classes.length = 0 then none else some ⟨strings, classes, mesh⟩

end Loader

def Terminated (t : Strings) (off : Nat) : Prop := ∃ n, t.buf[off + n]? = some 0

/-- What `avm_dispatch` and the renderer index with numbers of the tables. A string, a
class and a field number are compared with the table's length first. -/
structure IndicesInside (im : Image) (ld : Loaded) : Prop where
  strings : ∀ off ∈ ld.strings.offs, Terminated ld.strings off
  methods : ∀ cl ∈ ld.classes, ∀ i < cl.nMethods, i < cl.m.length
  code : ∀ cl ∈ ld.classes, ∀ mt ∈ cl.m, ∀ pc < mt.codeLen, mt.codeOff + pc < im.len
  corners : ∀ mesh ∈ ld.mesh, ∀ t < mesh.nt, ∀ k < 3, t * 3 + k < mesh.idx.length
  vertices : ∀ mesh ∈ ld.mesh, ∀ i ∈ mesh.idx, 0 ≤ i ∧ i < mesh.vertices.length

structure CountsFit (ld : Loaded) : Prop where
  strings : ld.strings.offs.length ≤ vmStrMax
  strbuf : ld.strings.buf.length ≤ vmStrbufMax
  classes : ld.classes.length ≤ vmMaxClasses
  methods : ∀ cl ∈ ld.classes, cl.nMethods ≤ vmMaxMethods
  fields : ∀ cl ∈ ld.classes, cl.nFields ≤ vmMaxField
  vertices : ∀ mesh ∈ ld.mesh, mesh.vertices.length ≤ meshMaxV
  triangles : ∀ mesh ∈ ld.mesh, mesh.nt ≤ meshMaxT

section Layout

variable (im : Image)

def stringEnd (p : Nat) : Nat := p + 2 + im.u16 p

def methodEnd (p : Nat) : Nat := p + 5 + im.u16 (p + 3)

def classEnd (p : Nat) : Nat :=
  (methodEnd im)^[min (im.u16 (p + 4)) vmMaxMethods] (p + 6)

def classTable : Nat := (stringEnd im)^[min (im.u16 4) vmStrMax] 6

def classCount : Nat := min (im.u16 (classTable im)) vmMaxClasses

def classAt (k : Nat) : Nat := (classEnd im)^[k] (classTable im + 2)

def meshAt : Nat := classAt im (classCount im)

def vertexCount : Nat := im.u32 (meshAt im + 1)

def triangleCount : Nat := im.u32 (meshAt im + 5)

/-- The vertex number of corner `t`, as the mesh region stores it. -/
def cornerAt (t : Nat) : Nat :=
  let width := im.u8 (meshAt im + 9)
  let q := meshAt im + 14 + vertexCount im * 9 + t * width
  if width = 2 then im.u16 q else im.u32 q

/-- The declared methods and fields fit, and every corner is a vertex of the mesh. -/
def TablesFit : Prop :=
  (∀ k < classCount im, im.u16 (classAt im k + 4) ≤ vmMaxMethods ∧
    im.u16 (classAt im k + 2) ≤ vmMaxField) ∧
  (MeshMarked im (meshAt im) → ∀ t < triangleCount im * 3, cornerAt im t < vertexCount im)

instance : Decidable (TablesFit im) := inferInstanceAs (Decidable (_ ∧ _))

end Layout

section Read

variable {im : Image}

structure StringsOk (t : Strings) : Prop where
  inside : ∀ off ∈ t.offs, Terminated t off
  strbuf : t.buf.length ≤ vmStrbufMax

variable {t : Strings} {n p q : Nat}

theorem Terminated.append {off : Nat} (ends : Terminated t off) (offs : List Nat)
    (more : List UInt8) : Terminated ⟨offs, t.buf ++ more⟩ off := by
  obtain ⟨n, zero⟩ := ends
  have inside := (List.getElem?_eq_some_iff.mp zero).1
  refine ⟨n, ?_⟩
  change (t.buf ++ more)[off + n]? = some 0
  rw [List.getElem?_append_left inside]
  exact zero

theorem StringsOk.push (ok : StringsOk t) {text : List UInt8}
    (room : t.buf.length + text.length + 1 ≤ vmStrbufMax) :
    StringsOk ⟨t.offs ++ [t.buf.length], t.buf ++ text ++ [0]⟩ := by
  refine ⟨?_, ?_⟩
  · intro off listed
    rcases List.mem_append.mp listed with earlier | last
    · rw [List.append_assoc]
      exact (ok.inside off earlier).append _ _
    · obtain rfl := List.mem_singleton.mp last
      refine ⟨text.length, ?_⟩
      change (t.buf ++ text ++ [0])[t.buf.length + text.length]? = some 0
      rw [← List.length_append, List.getElem?_append_right (Nat.le_refl _), Nat.sub_self]
      rfl
  · change (t.buf ++ text ++ [0]).length ≤ vmStrbufMax
    rw [List.length_append, List.length_append]
    exact room

theorem loadStrings_spec {t' : Strings} (ok : StringsOk t)
    (run : loadStrings im n p t = some (t', q)) :
    StringsOk t' ∧ t'.offs.length = t.offs.length + n ∧ q = (stringEnd im)^[n] p := by
  induction n generalizing p t with
  | zero =>
    obtain ⟨rfl, rfl⟩ := Prod.mk.inj (Option.some.inj run)
    exact ⟨ok, rfl, rfl⟩
  | succ n ih =>
    unfold loadStrings at run
    simp only at run
    split_ifs at run with short long
    have room : t.buf.length + (im.bytes (p + 2) (im.u16 p)).length + 1 ≤ vmStrbufMax := by
      unfold Image.bytes
      rw [List.length_map, List.length_range]
      omega
    obtain ⟨ok', len, rfl⟩ := ih (ok.push room) run
    refine ⟨ok', ?_, rfl⟩
    rw [len, List.length_append, List.length_singleton]
    omega

def CodeInside (im : Image) (mt : MethodEntry) : Prop := mt.codeOff + mt.codeLen ≤ im.len

theorem loadMethods_spec {ms : List MethodEntry} (run : loadMethods im n p = some (ms, q)) :
    ms.length = n ∧ (∀ mt ∈ ms, CodeInside im mt) ∧ q = (methodEnd im)^[n] p := by
  induction n generalizing p ms q with
  | zero =>
    obtain ⟨rfl, rfl⟩ := Prod.mk.inj (Option.some.inj run)
    exact ⟨rfl, fun mt listed => (List.not_mem_nil listed).elim, rfl⟩
  | succ n ih =>
    unfold loadMethods at run
    simp only at run
    split_ifs at run with short long
    obtain ⟨⟨rest, r⟩, first, done⟩ := Option.bind_eq_some_iff.mp run
    obtain ⟨rfl, rfl⟩ := Prod.mk.inj (Option.some.inj done)
    obtain ⟨len, inside, rfl⟩ := ih first
    refine ⟨?_, ?_, rfl⟩
    · rw [List.length_cons, len]
    · intro mt listed
      rcases List.mem_cons.mp listed with rfl | later
      · exact Nat.le_of_not_lt long
      · exact inside mt later

/-- A class as its record at `p` declares it, with the methods that fit. -/
structure ReadAt (im : Image) (p : Nat) (cl : ClassEntry) : Prop where
  fields : cl.nFields = im.u16 (p + 2)
  methods : cl.nMethods = im.u16 (p + 4)
  loaded : cl.m.length = min cl.nMethods vmMaxMethods
  code : ∀ mt ∈ cl.m, CodeInside im mt

theorem loadClasses_spec {cs : List ClassEntry} (run : loadClasses im n p = some (cs, q)) :
    cs.length = n ∧ q = (classEnd im)^[n] p ∧
      ∀ k (inside : k < cs.length), ReadAt im ((classEnd im)^[k] p) cs[k] := by
  induction n generalizing p cs q with
  | zero =>
    obtain ⟨rfl, rfl⟩ := Prod.mk.inj (Option.some.inj run)
    exact ⟨rfl, rfl, fun k inside => (Nat.not_lt_zero k inside).elim⟩
  | succ n ih =>
    unfold loadClasses at run
    split_ifs at run with short
    obtain ⟨⟨ms, r⟩, methods, rest⟩ := Option.bind_eq_some_iff.mp run
    obtain ⟨⟨cs', r'⟩, classes, done⟩ := Option.bind_eq_some_iff.mp rest
    obtain ⟨rfl, rfl⟩ := Prod.mk.inj (Option.some.inj done)
    obtain ⟨loaded, code, rfl⟩ := loadMethods_spec methods
    obtain ⟨len, rfl, each⟩ := ih classes
    refine ⟨?_, rfl, ?_⟩
    · rw [List.length_cons, len]
    · intro k inside
      cases k with
      | zero => exact ⟨rfl, rfl, loaded, code⟩
      | succ k => exact each k (Nat.lt_of_succ_lt_succ inside)

theorem wrapInt_u32 {im : Image} (low : 0 ≤ wrapInt (im.u32 p)) :
    wrapInt (im.u32 p) = im.u32 p := by
  have bound : im.u32 p < 4294967296 := by
    have a := (im.byte p).toNat_lt
    have b := (im.byte (p + 1)).toNat_lt
    have c := (im.byte (p + 2)).toNat_lt
    have d := (im.byte (p + 2 + 1)).toNat_lt
    unfold Image.u32 Image.u16 Image.u8
    omega
  unfold wrapInt at low ⊢
  rw [Int.bmod_def] at low ⊢
  split_ifs at low ⊢ <;> omega

/-- A mesh as its region at `p` declares it. -/
structure MeshAt (im : Image) (p : Nat) (mesh : Mesh) : Prop where
  triangles : mesh.nt = im.u32 (p + 4)
  vertices : mesh.vertices.length = im.u32 p
  fewTriangles : mesh.nt ≤ meshMaxT
  fewVertices : mesh.vertices.length ≤ meshMaxV
  idx : mesh.idx = (List.range (mesh.nt * 3)).map (cornerIdx im p (im.u32 p))

theorem loadMesh_spec {mesh : Mesh} (run : loadMesh im p = some mesh) :
    MeshAt im p mesh := by
  unfold loadMesh at run
  simp only at run
  split_ifs at run with short bad long
  obtain rfl := Option.some.inj run
  have nv : wrapInt (im.u32 p) = im.u32 p := wrapInt_u32 (by omega)
  have nt : wrapInt (im.u32 (p + 4)) = im.u32 (p + 4) := wrapInt_u32 (by omega)
  rw [nv, nt] at bad
  refine ⟨?_, ?_, ?_, ?_, ?_⟩
  · simp only [nt, Int.toNat_natCast]
  · simp only [nv, Int.toNat_natCast, List.length_map, List.length_range]
  · simp only [nt, Int.toNat_natCast]
    omega
  · simp only [nv, Int.toNat_natCast, List.length_map, List.length_range]
    omega
  · simp only [nv, nt, Int.toNat_natCast]

theorem wrapInt_u32_inside {nv : Nat} (few : nv ≤ meshMaxV) :
    (0 ≤ wrapInt (im.u32 p) ∧ wrapInt (im.u32 p) < nv) ↔ im.u32 p < nv := by
  unfold meshMaxV at few
  constructor
  · rintro ⟨low, high⟩
    rw [wrapInt_u32 low] at high
    exact Int.ofNat_lt.mp high
  · intro high
    have same : wrapInt (im.u32 p) = im.u32 p := by
      unfold wrapInt
      rw [Int.bmod_def]
      split_ifs <;> omega
    rw [same]
    omega

end Read

section Accepted

variable {im : Image} {ld : Loaded}

structure ReadFrom (im : Image) (ld : Loaded) : Prop where
  strings : StringsOk ld.strings
  count : ld.strings.offs.length ≤ vmStrMax
  classes : ld.classes.length = classCount im
  each : ∀ k (inside : k < ld.classes.length), ReadAt im (classAt im k) ld.classes[k]
  mesh : ∀ mesh ∈ ld.mesh, MeshMarked im (meshAt im) ∧ MeshAt im (meshAt im + 1) mesh
  marked : MeshMarked im (meshAt im) → ld.mesh ≠ none

theorem avmLoad_spec (accepted : avmLoad im = some ld) : ReadFrom im ld := by
  unfold avmLoad at accepted
  split_ifs at accepted with bad
  obtain ⟨⟨strings, p⟩, first, accepted⟩ := Option.bind_eq_some_iff.mp accepted
  simp only at accepted
  split_ifs at accepted with short
  obtain ⟨⟨classes, q⟩, second, accepted⟩ := Option.bind_eq_some_iff.mp accepted
  simp only at accepted
  have start : StringsOk ⟨[], []⟩ :=
    ⟨fun off listed => (List.not_mem_nil listed).elim, Nat.zero_le _⟩
  obtain ⟨ok, len, rfl⟩ := loadStrings_spec start first
  obtain ⟨many, place, each⟩ := loadClasses_spec second
  obtain rfl : q = meshAt im := place
  have count : strings.offs.length ≤ vmStrMax := by
    rw [len]
    change 0 + min (im.u16 4) vmStrMax ≤ vmStrMax
    omega
  by_cases marked : MeshMarked im (meshAt im)
  · rw [if_pos marked] at accepted
    obtain ⟨mesh, third, accepted⟩ := Option.bind_eq_some_iff.mp accepted
    obtain ⟨m, read, rfl⟩ := Option.map_eq_some_iff.mp third
    split_ifs at accepted with empty
    obtain rfl := Option.some.inj accepted
    refine ⟨ok, count, many, each, ?_, fun _ => Option.some_ne_none m⟩
    intro m' has
    obtain rfl := Option.some.inj has
    exact ⟨marked, loadMesh_spec read⟩
  · rw [if_neg marked] at accepted
    obtain ⟨mesh, third, accepted⟩ := Option.bind_eq_some_iff.mp accepted
    obtain rfl := Option.some.inj third
    split_ifs at accepted with empty
    obtain rfl := Option.some.inj accepted
    exact ⟨ok, count, many, each, fun m has => absurd has (by simp), fun yes => (marked yes).elim⟩

theorem corners_iff {mesh : Mesh} (at' : MeshAt im (meshAt im + 1) mesh) :
    (∀ i ∈ mesh.idx, 0 ≤ i ∧ i < mesh.vertices.length) ↔
      ∀ t < triangleCount im * 3, cornerAt im t < vertexCount im := by
  have few := at'.fewVertices
  have nv : mesh.vertices.length = vertexCount im := at'.vertices
  have nt : mesh.nt = triangleCount im := at'.triangles
  rw [nv] at few
  have one : ∀ t, (0 ≤ cornerIdx im (meshAt im + 1) (vertexCount im) t ∧
      cornerIdx im (meshAt im + 1) (vertexCount im) t < vertexCount im) ↔
        cornerAt im t < vertexCount im := by
    intro t
    unfold cornerIdx cornerAt
    simp only [Nat.add_assoc, Nat.reduceAdd]
    split_ifs
    · omega
    · exact wrapInt_u32_inside few
  have idx : mesh.idx = (List.range (triangleCount im * 3)).map
      (cornerIdx im (meshAt im + 1) (vertexCount im)) := by
    rw [at'.idx, nt]
    rfl
  rw [nv, idx]
  constructor
  · intro all t inside
    exact (one t).mp (all _ (List.mem_map_of_mem (List.mem_range.mpr inside)))
  · intro all i listed
    obtain ⟨t, inside, rfl⟩ := List.mem_map.mp listed
    exact (one t).mpr (all t (List.mem_range.mp inside))

end Accepted

/-- The tables of an accepted module stay inside their arrays exactly when its class
records declare no more methods and fields than fit, and its triangles name vertices. -/
theorem accepted_inside_iff {im : Image} {ld : Loaded} (accepted : avmLoad im = some ld) :
    (IndicesInside im ld ∧ CountsFit ld) ↔ TablesFit im := by
  obtain ⟨strings, count, classes, each, mesh, marked⟩ := avmLoad_spec accepted
  constructor
  · rintro ⟨inside, fit⟩
    refine ⟨?_, ?_⟩
    · intro k below
      rw [← classes] at below
      have read := each k below
      rw [← read.methods, ← read.fields]
      exact ⟨fit.methods _ (List.getElem_mem below), fit.fields _ (List.getElem_mem below)⟩
    · intro marks
      obtain ⟨m, has⟩ := Option.ne_none_iff_exists'.mp (marked marks)
      exact (corners_iff (mesh m has).2).mp (inside.vertices m has)
  · rintro ⟨declared, corners⟩
    have read : ∀ cl ∈ ld.classes, cl.nMethods ≤ vmMaxMethods ∧ cl.nFields ≤ vmMaxField ∧
        cl.m.length = min cl.nMethods vmMaxMethods ∧ ∀ mt ∈ cl.m, CodeInside im mt := by
      intro cl listed
      obtain ⟨k, below, rfl⟩ := List.getElem_of_mem listed
      have one := each k below
      obtain ⟨methods, fields⟩ := declared k (classes ▸ below)
      rw [← one.methods] at methods
      rw [← one.fields] at fields
      exact ⟨methods, fields, one.loaded, one.code⟩
    refine ⟨⟨strings.inside, ?_, ?_, ?_, ?_⟩, ⟨count, strings.strbuf, ?_, ?_, ?_, ?_, ?_⟩⟩
    · intro cl listed i below
      obtain ⟨methods, _, loaded, _⟩ := read cl listed
      rw [loaded, Nat.min_eq_left methods]
      exact below
    · intro cl listed mt entry pc below
      have code := (read cl listed).2.2.2 mt entry
      unfold CodeInside at code
      omega
    · intro m has t below k corner
      rw [(mesh m has).2.idx, List.length_map, List.length_range]
      omega
    · intro m has
      exact (corners_iff (mesh m has).2).mpr (corners (mesh m has).1)
    · rw [classes]
      exact Nat.min_le_right _ _
    · exact fun cl listed => (read cl listed).1
    · exact fun cl listed => (read cl listed).2.1
    · exact fun m has => (mesh m has).2.fewVertices
    · exact fun m has => (mesh m has).2.fewTriangles

def imageOf (bytes : List UInt8) : Image := ⟨fun i => bytes.getD i 0, bytes.length⟩

/-- No strings, and one class that declares one method, `RET`. -/
def oneMethod : Image :=
  imageOf [65, 86, 77, 49, 0, 0, 1, 0, 0, 0, 0, 0, 1, 0, 0, 0, 0, 1, 0, 67]

theorem accepted_inside_iff_oneMethod :
    ∃ ld, avmLoad oneMethod = some ld ∧ ((IndicesInside oneMethod ld ∧ CountsFit ld) ↔
      TablesFit oneMethod) ∧ TablesFit oneMethod := by
  obtain ⟨ld, accepted⟩ := Option.isSome_iff_exists.mp
    (show (avmLoad oneMethod).isSome = true by decide)
  exact ⟨ld, accepted, accepted_inside_iff accepted, by decide⟩

/-- The second format with one class, one vertex, and a triangle of the vertices 0, 0, 5. -/
def strayCorner : Image :=
  imageOf ([65, 86, 77, 50, 0, 0, 1, 0, 0, 0, 0, 0, 0, 0] ++
    [1, 1, 0, 0, 0, 1, 0, 0, 0, 2, 1, 0, 0, 0] ++ List.replicate 9 0 ++ [0, 0, 0, 0, 5, 0])

/-- The loader accepts a mesh whose triangle names a vertex that is not there. -/
theorem stray_corner_accepted :
    ∃ ld, avmLoad strayCorner = some ld ∧ ¬ IndicesInside strayCorner ld := by
  have read : (avmLoad strayCorner).map (fun ld => ld.mesh.map fun mesh =>
      (mesh.vertices.length, mesh.idx)) = some (some (1, [0, 0, 5])) := by
    decide
  obtain ⟨ld, accepted, tables⟩ := Option.map_eq_some_iff.mp read
  obtain ⟨mesh, has, data⟩ := Option.map_eq_some_iff.mp tables
  obtain ⟨one, idx⟩ := Prod.mk.inj data
  refine ⟨ld, accepted, fun inside => ?_⟩
  have stray := (inside.vertices mesh has 5 (by rw [idx]; decide)).2
  rw [one] at stray
  exact absurd stray (by decide)

end XinuRpi5.Video.AvmLoad
