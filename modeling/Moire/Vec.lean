import Moire.Number

/-!
# Vectors of the plane and of space

Points of a Brillouin zone, lattice vectors and atoms. Every operation works on the components
from the first to the last.
-/

namespace Moire

/-- A vector of the plane. -/
@[ext] structure Vec2 (α : Type) where
  x : α
  y : α
  deriving DecidableEq, Repr, Inhabited

/-- A vector of space. -/
@[ext] structure Vec3 (α : Type) where
  x : α
  y : α
  z : α
  deriving DecidableEq, Repr, Inhabited

namespace Vec2

variable {α : Type} [Number α]

/-- The origin. -/
def zero : Vec2 α := ⟨0, 0⟩

instance : Add (Vec2 α) := ⟨fun p q ↦ ⟨p.x + q.x, p.y + q.y⟩⟩

instance : Sub (Vec2 α) := ⟨fun p q ↦ ⟨p.x - q.x, p.y - q.y⟩⟩

instance : Neg (Vec2 α) := ⟨fun p ↦ ⟨-p.x, -p.y⟩⟩

/-- Multiplication by a number. -/
instance : HMul (Vec2 α) α (Vec2 α) := ⟨fun p s ↦ ⟨p.x * s, p.y * s⟩⟩

/-- Division by a number. -/
instance : HDiv (Vec2 α) α (Vec2 α) := ⟨fun p s ↦ ⟨p.x / s, p.y / s⟩⟩

@[simp] theorem add_x (p q : Vec2 α) : (p + q).x = p.x + q.x := rfl
@[simp] theorem add_y (p q : Vec2 α) : (p + q).y = p.y + q.y := rfl
@[simp] theorem sub_x (p q : Vec2 α) : (p - q).x = p.x - q.x := rfl
@[simp] theorem sub_y (p q : Vec2 α) : (p - q).y = p.y - q.y := rfl
@[simp] theorem neg_x (p : Vec2 α) : (-p).x = -p.x := rfl
@[simp] theorem neg_y (p : Vec2 α) : (-p).y = -p.y := rfl
@[simp] theorem mul_x (p : Vec2 α) (s : α) : (p * s).x = p.x * s := rfl
@[simp] theorem mul_y (p : Vec2 α) (s : α) : (p * s).y = p.y * s := rfl
@[simp] theorem div_x (p : Vec2 α) (s : α) : (p / s).x = p.x / s := rfl
@[simp] theorem div_y (p : Vec2 α) (s : α) : (p / s).y = p.y / s := rfl

/-- The inner product. -/
def dot (p q : Vec2 α) : α := p.x * q.x + p.y * q.y

/-- The signed area that two vectors span. -/
def cross (p q : Vec2 α) : α := p.x * q.y - p.y * q.x

/-- The squared length. -/
def normSq (p : Vec2 α) : α := p.x * p.x + p.y * p.y

/-- The vector turned by a right angle, counter-clockwise. -/
def turned (p : Vec2 α) : Vec2 α := ⟨-p.y, p.x⟩

/-- The vector of space above a vector of the plane. -/
def lift (p : Vec2 α) (height : α) : Vec3 α := ⟨p.x, p.y, height⟩

end Vec2

/-- The length. -/
def Vec2.norm {α : Type} [Scalar α] (p : Vec2 α) : α := Scalar.sqrt p.normSq

namespace Vec3

variable {α : Type} [Number α]

instance : Add (Vec3 α) := ⟨fun p q ↦ ⟨p.x + q.x, p.y + q.y, p.z + q.z⟩⟩

instance : Sub (Vec3 α) := ⟨fun p q ↦ ⟨p.x - q.x, p.y - q.y, p.z - q.z⟩⟩

@[simp] theorem add_x (p q : Vec3 α) : (p + q).x = p.x + q.x := rfl
@[simp] theorem add_y (p q : Vec3 α) : (p + q).y = p.y + q.y := rfl
@[simp] theorem add_z (p q : Vec3 α) : (p + q).z = p.z + q.z := rfl
@[simp] theorem sub_x (p q : Vec3 α) : (p - q).x = p.x - q.x := rfl
@[simp] theorem sub_y (p q : Vec3 α) : (p - q).y = p.y - q.y := rfl
@[simp] theorem sub_z (p q : Vec3 α) : (p - q).z = p.z - q.z := rfl

/-- The squared length. -/
def normSq (p : Vec3 α) : α := p.x * p.x + p.y * p.y + p.z * p.z

/-- The projection onto the plane. -/
def planar (p : Vec3 α) : Vec2 α := ⟨p.x, p.y⟩

end Vec3

/-- The length. -/
def Vec3.norm {α : Type} [Scalar α] (p : Vec3 α) : α := Scalar.sqrt p.normSq

end Moire
