import Silva.Geo.Proofs.MortonLessProofs
import Silva.Geo.Proofs.CurveProofs
import Silva.Mvq.Proofs.HistoryProofs
import Silva.Mvq.Proofs.RangeProofs
import Silva.Mvq.Proofs.KnnProofs
import Silva.Mvq.Proofs.JoinProofs
import Silva.Mvq.Proofs.ConflictProofs
import Silva.Mvq.Proofs.CollectProofs
import Silva.Mvq.Proofs.PersistenceProofs
import Silva.Mvq.Proofs.PointersProofs
import Silva.Mvq.Proofs.InPlaceProofs
import Silva.Mvq.Proofs.InPlaceAgreementProofs
import Silva.Mvq.Proofs.PurgeProofs
import Silva.Cpam.Proofs.AugmentedSumsProofs
import Silva.Cpam.Proofs.CompressionProofs
import Silva.Pacz.Proofs.TreeProofs
import Silva.Pacz.Proofs.MapMergeProofs
import Silva.Pacz.Proofs.CommitProofs
import Silva.Pacz.Proofs.KnnAgreementProofs
import Silva.Pacz.Proofs.IndexProofs
import Silva.Rlog.Proofs.ViewProofs
import Silva.Rlog.Proofs.KnnOrderProofs
import Silva.Rlog.Proofs.DiffProofs
import Silva.Pkdlog.Proofs.VersionProofs
import Silva.Bench.Proofs.AgreementProofs
import Silva.Bench.Proofs.PruningBoxProofs
import Silva.Brtree.Proofs.QueryProofs
import Silva.Brtree.Proofs.PrefixProofs
