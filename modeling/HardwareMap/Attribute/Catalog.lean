import HardwareMap.Attribute.Table

/-!
# The catalog of well-known attributes

Common hardware attributes, each with the one rule by which it is stored.
-/

namespace HardwareMap.Catalog

def rules : List (String × Rule) :=
  [ -- Cache allocation: class of service and way mask.
    ("CATcos", .u64),
    ("CATL3mask", .u64),
    -- Memory of a partition of a graphics processor.
    ("mig_size", .i64),
    ("Number_of_streaming_multiprocessors", .i32),
    ("Number_of_cores_in_GPU", .i32),
    ("Number_of_cores_per_SM", .i32),
    ("Bus_Width_bit", .i32),
    ("Clock_Frequency", .f64),
    ("latency", .f32),
    ("latency_min", .f32),
    ("latency_max", .f32),
    ("CUDA_compute_capability", .string),
    ("mig_uuid", .string),
    -- Frequencies in hertz, each with its time stamp.
    ("freq_history", .pairList),
    -- A rate with its unit.
    ("GPU_Clock_Rate", .tagged) ]

def table : Table := .ofList rules

end HardwareMap.Catalog
