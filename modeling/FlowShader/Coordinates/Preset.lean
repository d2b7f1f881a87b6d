import FlowShader.Coordinates.Frame

namespace FlowShader.Coordinates

inductive Preset where
  | cartesian2d
  | cartesian3d
  | cartesian4d
  | polar2d
  | cylindrical3d
  | spherical3d
  | hyperspherical4d
deriving DecidableEq, Repr

namespace Preset

def all : List Preset :=
  [cartesian2d, cartesian3d, cartesian4d, polar2d, cylindrical3d, spherical3d, hyperspherical4d]

def name : Preset → String
  | cartesian2d => "cartesian2d"
  | cartesian3d => "cartesian3d"
  | cartesian4d => "cartesian4d"
  | polar2d => "polar2d"
  | cylindrical3d => "cylindrical3d"
  | spherical3d => "spherical3d"
  | hyperspherical4d => "hyperspherical4d"

def ofName? (name : String) : Option Preset := all.find? (·.name == name)

/-- Coordinates, forward and inverse formulas. -/
def parts : Preset → List Coordinate × List String × List String
  | cartesian2d => identity 2
  | cartesian3d => identity 3
  | cartesian4d => identity 4
  | polar2d =>
    ([⟨"r", "r"⟩, ⟨"theta", "θ"⟩],
      ["sqrt(x^2 + y^2)", "atan2(y, x)"],
      ["r * cos(theta)", "r * sin(theta)"])
  | cylindrical3d =>
    ([⟨"r", "r"⟩, ⟨"theta", "θ"⟩, ⟨"z", "z"⟩],
      ["sqrt(x^2 + y^2)", "atan2(y, x)", "z"],
      ["r * cos(theta)", "r * sin(theta)", "z"])
  | spherical3d =>
    ([⟨"r", "r"⟩, ⟨"theta", "θ"⟩, ⟨"phi", "φ"⟩],
      ["sqrt(x^2 + y^2 + z^2)", "acos(z / sqrt(x^2 + y^2 + z^2))", "atan2(y, x)"],
      ["r * sin(theta) * cos(phi)", "r * sin(theta) * sin(phi)", "r * cos(theta)"])
  | hyperspherical4d =>
    ([⟨"r", "r"⟩, ⟨"psi", "ψ"⟩, ⟨"theta", "θ"⟩, ⟨"phi", "φ"⟩],
      ["sqrt(x^2 + y^2 + z^2 + w^2)", "acos(w / sqrt(x^2 + y^2 + z^2 + w^2))",
        "acos(z / sqrt(x^2 + y^2 + z^2))", "atan2(y, x)"],
      ["r * sin(psi) * sin(theta) * cos(phi)", "r * sin(psi) * sin(theta) * sin(phi)",
        "r * sin(psi) * cos(theta)", "r * cos(psi)"])
where
  identity (n : Nat) : List Coordinate × List String × List String :=
    let names := Names.axes n
    (names.map fun v => ⟨v, v⟩, names, names)

def record (p : Preset) : Record :=
  let (coordinates, forward, inverse) := p.parts
  ⟨p.name, coordinates.length, coordinates, forward, some inverse, false⟩

end Preset

namespace Frame

variable {L : Type} [Literal L]

def ofPreset (name : String) : Except Error (Frame L) :=
  match Preset.ofName? name with
  | some p => ofRecord p.record
  | none => .error (.unknownPreset name)

def cartesian (n : Nat) : Except Error (Frame L) :=
  match n with
  | 2 => ofRecord Preset.cartesian2d.record
  | 3 => ofRecord Preset.cartesian3d.record
  | 4 => ofRecord Preset.cartesian4d.record
  | n => .error (.unsupportedDimension n)

end Frame

end FlowShader.Coordinates
